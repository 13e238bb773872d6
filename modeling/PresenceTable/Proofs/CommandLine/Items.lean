/-
  PresenceTable.Proofs.CommandLine.Items
  ──────────────────────────────────────
  **WHAT A COMMAND LINE IS PUT TOGETHER FROM.**

  A word of a command line plays one of two parts.  In item position it is
  the name of a flag or of an option, or a positional word; behind the name
  of an option it is the value, whatever it looks like.  So a command line is
  read off as a list of items, and `rendered` writes such a list out again.

  What an accepted list of items asks for can be said without reading it from
  the left: `asked` collects the flags, the last values and the input.  The
  order of the items matters in as far as these do.

  Main results:
    * `readWords_rendered` — items in front of other words;
    * `foldlM_takeItem` — what a list of items comes to;
    * `exists_rendered_or_stuck` — where a list of words is no such list;
    * `ofWords_inverts_rendered` — what is accepted, and what it asks for.
-/
import Mathlib.Data.List.Induction
import Mathlib.Tactic.SplitIfs
import PresenceTable.Proofs.CommandLine.Options

namespace PresenceTable

/-! ## §1. Items. -/

/-- What a command line is put together from. -/
inductive Item where
  | flag (f : Flag) (short : Bool)
  /-- An option and its value, which may be any word. -/
  | setting (option : FileOption) (short : Bool) (path : Bytes)
  /-- A word that does not begin with a dash. -/
  | positional (word : Bytes) (h : ¬ word.Dashed)
  deriving DecidableEq

namespace Item

/-- The words of an item. -/
def words : Item → List Bytes
  | .flag f short => [f.spelling short]
  | .setting option short path => [option.spelling short, path]
  | .positional word _ => [word]

/-- The item sets the flag. -/
def sets (f : Flag) : Item → Bool
  | .flag g _ => g = f
  | .setting _ _ _ | .positional _ _ => false

/-- The value that the item gives to the option. -/
def valueOf? (option : FileOption) : Item → Option Bytes
  | .setting other _ path => if other = option then some path else none
  | .flag _ _ | .positional _ _ => none

/-- The positional word that the item is. -/
def positional? : Item → Option Bytes
  | .positional word _ => some word
  | .flag _ _ | .setting _ _ _ => none

theorem exists_sets_iff {items : List Item} {f : Flag} :
    items.any (sets f) = true ↔ ∃ short, Item.flag f short ∈ items := by
  rw [List.any_eq_true]
  constructor
  · rintro ⟨item, hitem, hsets⟩
    cases item with
    | flag g short =>
        obtain rfl : g = f := of_decide_eq_true hsets
        exact ⟨short, hitem⟩
    | setting | positional => cases hsets
  · rintro ⟨short, hitem⟩
    exact ⟨_, hitem, decide_eq_true rfl⟩

end Item

/-- The words of these items, one after the other. -/
def rendered (items : List Item) : List Bytes := items.flatMap Item.words

/-- The values that the items give to the option, in their order. -/
def valuesOf (option : FileOption) (items : List Item) : List Bytes :=
  items.filterMap (Item.valueOf? option)

/-- The positional words, in their order. -/
def positionalsOf (items : List Item) : List Bytes := items.filterMap Item.positional?

@[simp] theorem valuesOf_append (option : FileOption) (items later : List Item) :
    valuesOf option (items ++ later) = valuesOf option items ++ valuesOf option later :=
  List.filterMap_append

@[simp] theorem positionalsOf_append (items later : List Item) :
    positionalsOf (items ++ later) = positionalsOf items ++ positionalsOf later :=
  List.filterMap_append

/-- No positional word comes behind one that is not empty. -/
def OneInput (items : List Item) : Prop :=
  (positionalsOf items).Pairwise fun earlier _ => earlier = []

instance (items : List Item) : Decidable (OneInput items) :=
  inferInstanceAs (Decidable ((positionalsOf items).Pairwise fun earlier _ => earlier = []))

/-! ## §2. What items ask for. -/

namespace Options

/-- Whether a flag is set. -/
def isSet (o : Options) : Flag → Bool
  | .selftest => o.selftest
  | .stats => o.showStats
  | .quiet => o.quiet
  | .help => o.help

/-- The value of an option. -/
def file (o : Options) : FileOption → Bytes
  | .types => o.types
  | .output => o.output

/-- The flags that occur, the last value of each option, and the positional
word that is not empty. -/
def asked (items : List Item) : Options where
  input := ((positionalsOf items).find? (· ≠ [])).getD []
  types := (valuesOf .types items).getLast?.getD []
  output := (valuesOf .output items).getLast?.getD []
  selftest := items.any (Item.sets .selftest)
  showStats := items.any (Item.sets .stats)
  quiet := items.any (Item.sets .quiet)
  help := items.any (Item.sets .help)

/-- The options after one more item. -/
def takeItem (o : Options) : Item → Except OptionsError Options
  | .flag f _ => .ok (o.setFlag f)
  | .setting option _ path => .ok (o.setFile path option)
  | .positional word _ => if o.input ≠ [] then .error .secondInput else .ok { o with input := word }

theorem readWords_item (o : Options) (item : Item) (later : List Bytes) :
    o.readWords (item.words ++ later) = o.takeItem item >>= fun o => o.readWords later := by
  cases item with
  | flag f short =>
      show o.readWords (f.spelling short :: later) = _
      rw [readWords, Word.ofText_flag]
      rfl
  | setting option short path =>
      show o.readWords (option.spelling short :: path :: later) = _
      rw [readWords, Word.ofText_option]
      rfl
  | positional word h =>
      show o.readWords (word :: later) = _
      rw [readWords, Word.ofText_of_not_dashed h]
      show (if o.input ≠ [] then _ else _) = (if o.input ≠ [] then _ else _) >>= _
      split <;> rfl

/-- **Items in front of other words** are taken one by one, and the other
words are read with what has come of them. -/
theorem readWords_rendered (items : List Item) (later : List Bytes) :
    ∀ o : Options, o.readWords (rendered items ++ later)
      = items.foldlM takeItem o >>= fun o => o.readWords later := by
  induction items with
  | nil => intro o; rfl
  | cons item items ih =>
      intro o
      show o.readWords (item.words ++ rendered items ++ later) = _
      rw [List.append_assoc, readWords_item, List.foldlM_cons, bind_assoc]
      exact bind_congr ih

theorem asked_append_flag (items : List Item) (f : Flag) (short : Bool) :
    asked (items ++ [.flag f short]) = (asked items).setFlag f := by
  cases f <;>
    simp [asked, setFlag, Item.sets, valuesOf, Item.valueOf?, positionalsOf, Item.positional?]

theorem asked_append_setting (items : List Item) (option : FileOption) (short : Bool)
    (path : Bytes) :
    asked (items ++ [.setting option short path]) = (asked items).setFile path option := by
  cases option <;>
    simp [asked, setFile, Item.sets, valuesOf, Item.valueOf?, positionalsOf, Item.positional?]

theorem asked_append_positional {items : List Item} {word : Bytes} (h : ¬ word.Dashed)
    (hempty : ∀ earlier ∈ positionalsOf items, earlier = []) :
    asked (items ++ [.positional word h]) = { asked items with input := word } := by
  have hinput : ((positionalsOf (items ++ [.positional word h])).find? (· ≠ [])).getD []
      = word := by
    rw [positionalsOf_append, List.find?_append, List.find?_eq_none.2 (by simpa using hempty)]
    cases word <;> rfl
  unfold asked
  rw [hinput]
  simp [Item.sets, valuesOf, Item.valueOf?]

theorem input_asked_eq_nil_iff {items : List Item} :
    (asked items).input = [] ↔ ∀ word ∈ positionalsOf items, word = [] := by
  show ((positionalsOf items).find? (· ≠ [])).getD [] = [] ↔ _
  cases hfind : (positionalsOf items).find? (· ≠ []) with
  | none => simpa using hfind
  | some word =>
      have hne : word ≠ [] := by simpa using List.find?_some hfind
      exact iff_of_false hne fun hempty => hne (hempty word (List.mem_of_find?_eq_some hfind))

/-- A further item is a second input if it is positional and there is an
input already. -/
theorem oneInput_append {items : List Item} {item : Item} :
    OneInput (items ++ [item])
      ↔ OneInput items ∧ (item.positional? = none ∨ (asked items).input = []) := by
  unfold OneInput
  rw [positionalsOf_append, List.pairwise_append, input_asked_eq_nil_iff]
  cases item with
  | flag f short =>
      have hnone : positionalsOf [.flag f short] = [] := rfl
      simp [hnone, Item.positional?]
  | setting option short path =>
      have hnone : positionalsOf [.setting option short path] = [] := rfl
      simp [hnone, Item.positional?]
  | positional word h =>
      have hone : positionalsOf [.positional word h] = [word] := rfl
      simp [hone, Item.positional?]

/-- **One item more.** -/
theorem takeItem_asked {items : List Item} (hitems : OneInput items) (item : Item) :
    (asked items).takeItem item
      = if OneInput (items ++ [item]) then .ok (asked (items ++ [item]))
        else .error .secondInput := by
  cases item with
  | flag f short =>
      rw [if_pos (oneInput_append.2 ⟨hitems, .inl rfl⟩), asked_append_flag]
      rfl
  | setting option short path =>
      rw [if_pos (oneInput_append.2 ⟨hitems, .inl rfl⟩), asked_append_setting]
      rfl
  | positional word h =>
      show (if (asked items).input ≠ [] then _ else _) = _
      by_cases hinput : (asked items).input = []
      · rw [if_neg (not_not.2 hinput), if_pos (oneInput_append.2 ⟨hitems, .inr hinput⟩),
          asked_append_positional h (input_asked_eq_nil_iff.1 hinput)]
      · have hsecond : ¬ OneInput (items ++ [.positional word h]) := by
          rw [oneInput_append]
          rintro ⟨-, hnone | hnone⟩
          · cases hnone
          · exact hinput hnone
        rw [if_pos hinput, if_neg hsecond]

/-- **What a list of items comes to.** -/
theorem foldlM_takeItem (items : List Item) :
    items.foldlM takeItem {}
      = if OneInput items then .ok (asked items) else .error .secondInput := by
  -- from the end, since it is the last value of an option that counts
  induction items using List.reverseRecOn with
  | nil => rfl
  | append_singleton items item ih =>
      rw [List.foldlM_append, ih]
      by_cases hitems : OneInput items
      · rw [if_pos hitems]
        show (asked items).takeItem item >>= pure = _
        rw [bind_pure, takeItem_asked hitems]
      · rw [if_neg hitems, if_neg fun hall => hitems (oneInput_append.1 hall).1]
        rfl

/-- A command line that is a list of items. -/
theorem ofWords_rendered (items : List Item) :
    ofWords (rendered items)
      = if OneInput items then
          if (asked items).isComplete then .ok (asked items) else .error .noInput
        else .error .secondInput := by
  have hread := readWords_rendered items [] {}
  rw [List.append_nil, foldlM_takeItem] at hread
  unfold ofWords
  rw [hread]
  by_cases hitems : OneInput items
  · rw [if_pos hitems, if_pos hitems]
    rfl
  · rw [if_neg hitems, if_neg hitems]
    rfl

/-! ## §3. Words that are no list of items. -/

/-- The words begin with a word in item position that names nothing, or with
the name of an option that has no value. -/
inductive Stuck : List Bytes → Prop
  | unnamed {word : Bytes} (h : Word.Unnamed word) (later : List Bytes) : Stuck (word :: later)
  | valueless (option : FileOption) (short : Bool) : Stuck [option.spelling short]

/-- **Words are a list of items, or such a list ends in front of a word that
belongs to none.** -/
theorem exists_rendered_or_stuck :
    ∀ words : List Bytes,
      ∃ items later, words = rendered items ++ later ∧ (later = [] ∨ Stuck later)
  | [] => ⟨[], [], rfl, .inl rfl⟩
  | word :: rest => by
      rcases Word.ofText_cases word with
        ⟨f, short, rfl, -⟩ | ⟨option, short, rfl, -⟩ | ⟨hunnamed, -⟩ | ⟨hdashed, -⟩
      · obtain ⟨items, later, rfl, hlater⟩ := exists_rendered_or_stuck rest
        exact ⟨.flag f short :: items, later, rfl, hlater⟩
      · cases rest with
        | nil => exact ⟨[], _, rfl, .inr (.valueless option short)⟩
        | cons path rest =>
            obtain ⟨items, later, rfl, hlater⟩ := exists_rendered_or_stuck rest
            exact ⟨.setting option short path :: items, later, rfl, hlater⟩
      · exact ⟨[], _, rfl, .inr (.unnamed hunnamed rest)⟩
      · obtain ⟨items, later, rfl, hlater⟩ := exists_rendered_or_stuck rest
        exact ⟨.positional word hdashed :: items, later, rfl, hlater⟩

theorem Stuck.readWords_eq_error {later : List Bytes} (h : Stuck later) (o : Options) :
    ∃ error, o.readWords later = .error error := by
  cases h with
  | unnamed h later =>
      rw [readWords, Word.ofText_of_unnamed h]
      exact ⟨_, rfl⟩
  | valueless option short =>
      rw [readWords, Word.ofText_option]
      exact ⟨_, rfl⟩

/-- **A list of items that ends in front of such a word** is refused. -/
theorem Stuck.ofWords_eq_error {later : List Bytes} (h : Stuck later) (items : List Item) :
    ∃ error, ofWords (rendered items ++ later) = .error error := by
  have hread := readWords_rendered items later {}
  unfold ofWords
  cases hitems : items.foldlM takeItem {} with
  | error error =>
      rw [hread, hitems]
      exact ⟨error, rfl⟩
  | ok o =>
      obtain ⟨error, herror⟩ := h.readWords_eq_error o
      rw [hread, hitems]
      show ∃ error, (o.readWords later >>= _) = .error error
      rw [herror]
      exact ⟨error, rfl⟩

/-! ## §4. What is accepted. -/

theorem isSet_asked_iff (items : List Item) (f : Flag) :
    (asked items).isSet f = true ↔ ∃ short, Item.flag f short ∈ items := by
  rw [← Item.exists_sets_iff]
  cases f <;> rfl

theorem file_asked (items : List Item) (option : FileOption) :
    (asked items).file option = (valuesOf option items).getLast?.getD [] := by
  cases option <;> rfl

/-- Where there is one input, it is the positional word that is not empty. -/
theorem input_asked_of_mem {items : List Item} (h : OneInput items) {word : Bytes}
    (hword : word ∈ positionalsOf items) (hne : word ≠ []) : (asked items).input = word := by
  show ((positionalsOf items).find? (· ≠ [])).getD [] = word
  cases hfind : (positionalsOf items).find? (· ≠ []) with
  | none => exact absurd hne (by simpa using List.find?_eq_none.1 hfind word hword)
  | some first =>
      obtain ⟨hfirst, before, after, hsplit, hbefore⟩ := List.find?_eq_some_iff_append.1 hfind
      unfold OneInput at h
      rw [hsplit] at h hword
      have hlater := (List.pairwise_cons.1 (List.pairwise_append.1 h).2.1).1
      rcases List.mem_append.1 hword with hmem | hmem
      · exact absurd hne (by simpa using hbefore word hmem)
      · rcases List.mem_cons.1 hmem with rfl | hmem
        · rfl
        · exact absurd (hlater word hmem) (by simpa using hfirst)

/-- The items name an input, or ask for something that needs none. -/
theorem isComplete_asked_iff (items : List Item) :
    (asked items).isComplete = true
      ↔ (∃ word ∈ positionalsOf items, word ≠ [])
        ∨ (∃ short, Item.flag .selftest short ∈ items)
        ∨ ∃ short, Item.flag .help short ∈ items := by
  have hinput : (asked items).input ≠ [] ↔ ∃ word ∈ positionalsOf items, word ≠ [] := by
    rw [ne_eq, input_asked_eq_nil_iff]
    simp
  rw [← hinput, ← isSet_asked_iff, ← isSet_asked_iff]
  unfold isComplete
  rw [Bool.or_eq_true, Bool.or_eq_true, decide_eq_true_iff, or_comm]
  rfl

/-- What a list of items asks for depends on which flags occur, on the values
of each option and on the positional words. -/
theorem asked_of_perm {items reordered : List Item} (h : items.Perm reordered)
    (hvalues : ∀ option, valuesOf option reordered = valuesOf option items)
    (hpositionals : positionalsOf reordered = positionalsOf items) :
    asked reordered = asked items := by
  unfold asked
  rw [hpositionals, hvalues, hvalues, h.any_eq, h.any_eq, h.any_eq, h.any_eq]

/-- **Reading a command line inverts writing it**, whatever the order of its
items.  A list of items is accepted when it has one input at most, and an
input or a request that needs none.  It then sets the flags that occur, gives
each option its last value, and names the positional word that is not empty;
so the items may change places, as long as the values of each option and the
positional words keep their order.  Words that are no list of items come to a
word in item position that names nothing, or end with an option without a
value, and they are refused. -/
theorem ofWords_inverts_rendered :
    (∀ items : List Item,
        ((∃ o, ofWords (rendered items) = .ok o)
            ↔ OneInput items
              ∧ ((∃ word ∈ positionalsOf items, word ≠ [])
                ∨ (∃ short, Item.flag .selftest short ∈ items)
                ∨ ∃ short, Item.flag .help short ∈ items))
          ∧ (∀ o, ofWords (rendered items) = .ok o →
              (∀ f, o.isSet f = true ↔ ∃ short, Item.flag f short ∈ items)
                ∧ (∀ option, o.file option = (valuesOf option items).getLast?.getD [])
                ∧ (∀ word ∈ positionalsOf items, word ≠ [] → o.input = word)
                ∧ ((∀ word ∈ positionalsOf items, word = []) → o.input = []))
          ∧ ∀ reordered : List Item, items.Perm reordered →
              (∀ option, valuesOf option reordered = valuesOf option items) →
              positionalsOf reordered = positionalsOf items →
              ofWords (rendered reordered) = ofWords (rendered items))
      ∧ (∀ words : List Bytes, (¬ ∃ items, words = rendered items) →
          (∃ items later, words = rendered items ++ later ∧ Stuck later)
            ∧ ∃ error, ofWords words = .error error)
      ∧ ∀ (items : List Item) (later : List Bytes), Stuck later →
          ∃ error, ofWords (rendered items ++ later) = .error error := by
  refine ⟨fun items => ⟨?_, ?_, ?_⟩, ?_, fun items _ h => h.ofWords_eq_error items⟩
  · rw [ofWords_rendered, ← isComplete_asked_iff]
    by_cases hone : OneInput items
    · rw [if_pos hone]
      by_cases hcomplete : (asked items).isComplete = true
      · rw [if_pos hcomplete]
        exact iff_of_true ⟨_, rfl⟩ ⟨hone, hcomplete⟩
      · rw [if_neg hcomplete]
        exact iff_of_false (by rintro ⟨_, ⟨⟩⟩) fun h => hcomplete h.2
    · rw [if_neg hone]
      exact iff_of_false (by rintro ⟨_, ⟨⟩⟩) fun h => hone h.1
  · intro o ho
    rw [ofWords_rendered] at ho
    split_ifs at ho with hone hcomplete
    cases ho
    exact ⟨isSet_asked_iff items, file_asked items, fun _ => input_asked_of_mem hone,
      input_asked_eq_nil_iff.2⟩
  · intro reordered hperm hvalues hpositionals
    have hone : OneInput reordered ↔ OneInput items := by
      unfold OneInput
      rw [hpositionals]
    rw [ofWords_rendered, ofWords_rendered, asked_of_perm hperm hvalues hpositionals]
    simp only [hone]
  · intro words hnot
    obtain ⟨items, later, rfl, rfl | hstuck⟩ := exists_rendered_or_stuck words
    · exact absurd ⟨items, List.append_nil _⟩ hnot
    · exact ⟨⟨items, later, rfl, hstuck⟩, hstuck.ofWords_eq_error items⟩

example :
    ofWords ["-o", "--stats", "", "-t", "types", "list", "-q", "--output", "-h"]
      = .ok { input := "list", types := "types", output := "-h", quiet := true } := by
  decide +kernel

end Options

end PresenceTable
