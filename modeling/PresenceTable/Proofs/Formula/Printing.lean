/-
  PresenceTable.Proofs.Formula.Printing
  ─────────────────────────────────────
  **A WRITTEN CONDITION IS READ BACK.**

  The written form of a condition encloses whatever precedence could tear
  apart, so its symbols form a phrase with the tree they came from.  There
  is one exception: the constant `bot` is written like a variable named
  `false` and is read as that variable.  `nameBot` puts the variable for
  the constant.

  The names in a tree can be any bytes, and a name with other than word
  bytes is not read back.  A condition that was read has word bytes in its
  names and no constant.

  Main results:
    * `spelledBy_print` — the written form spells the condition;
    * `print_eq_print_iff` — which conditions are written alike;
    * `SpelledBy.isWord` / `SpelledBy.botFree` — what a text can spell.
-/
import PresenceTable.Proofs.Formula.Reading
import PresenceTable.Proofs.Token.Spelling

namespace PresenceTable

namespace Formula

/-! ## §1. Names and the constant. -/

/-- The variables of a condition, from left to right. -/
def names : Formula → List Name
  | .bot => []
  | .var n => [n]
  | .neg f => f.names
  | .conj f g | .disj f g => f.names ++ g.names

/-- The constant `bot` does not occur. -/
def BotFree : Formula → Prop
  | .bot => False
  | .var _ => True
  | .neg f => f.BotFree
  | .conj f g | .disj f g => f.BotFree ∧ g.BotFree

/-- The variable that is written like the constant `bot`. -/
def botName : Name := ⟨"false", by decide⟩

theorem botName_isWord : botName.IsWord := by decide

/-- The condition with that variable in place of the constant `bot`. -/
def nameBot : Formula → Formula
  | .bot => .var botName
  | .var n => .var n
  | .neg f => .neg f.nameBot
  | .conj f g => .conj f.nameBot g.nameBot
  | .disj f g => .disj f.nameBot g.nameBot

theorem nameBot_of_botFree {f : Formula} (h : f.BotFree) : f.nameBot = f := by
  induction f with
  | bot => exact absurd h id
  | var n => rfl
  | neg f ih => rw [nameBot, ih h]
  | conj f g ihf ihg | disj f g ihf ihg => rw [nameBot, ihf h.1, ihg h.2]

/-- The variable is written like the constant. -/
theorem print_nameBot (f : Formula) : f.nameBot.print = f.print := by
  induction f with
  | bot => rfl
  | var n => rfl
  | neg f ih => rw [nameBot, print_neg, print_neg, ih]
  | conj f g ihf ihg => rw [nameBot, print_conj, print_conj, ihf, ihg]
  | disj f g ihf ihg => rw [nameBot, print_disj, print_disj, ihf, ihg]

/-! ## §2. The symbols of the written form. -/

/-- The symbols with which a condition is written. -/
def symbols : Formula → List Symbol
  | .bot => [.name botName]
  | .var n => [.name n]
  | .neg f => .bang :: f.symbols
  | .conj f g => .opening :: ((f.symbols ++ .and :: g.symbols) ++ [.closing])
  | .disj f g => .opening :: ((f.symbols ++ .or :: g.symbols) ++ [.closing])

/-- **The symbols are a phrase**, which is as tight as an operand has to be. -/
theorem derives_symbols (f : Formula) : Derives .unary f.symbols f.nameBot := by
  induction f with
  | bot => exact .ofPrimary (.name botName)
  | var n => exact .ofPrimary (.name n)
  | neg f ih => exact .bang ih
  | conj f g ihf ihg =>
      have hboth := Derives.and (.ofUnary ihf) ihg
      exact .ofPrimary (.paren (.ofConjunction hboth))
  | disj f g ihf ihg =>
      have hboth := Derives.or (.ofConjunction (.ofUnary ihf)) (.ofUnary ihg)
      exact .ofPrimary (.paren hboth)

/-- The written form of the condition gives its symbols, in front of any
text that does not go on with a name. -/
def PrintsSymbols (f : Formula) : Prop :=
  ∀ (rest : Bytes) (word : List Symbol), rest.EndsName → rest.ScansTo word →
    (f.printOnto rest).ScansTo (f.symbols ++ word)

/-- Two operands in parentheses, with a sign between them. -/
theorem scansTo_binary {f g : Formula} {sign : Symbol} {between : Bytes}
    (hf : f.PrintsSymbols) (hg : g.PrintsSymbols)
    (hends : ∀ after : Bytes, (between ++ after).EndsName)
    (hsign : ∀ (after : Bytes) (word : List Symbol),
      after.ScansTo word → (between ++ after).ScansTo (sign :: word))
    {rest : Bytes} {word : List Symbol} (hrest : rest.ScansTo word) :
    Bytes.ScansTo ("(" ++ f.printOnto (between ++ g.printOnto (")" ++ rest)))
      ((.opening :: ((f.symbols ++ sign :: g.symbols) ++ [.closing])) ++ word) := by
  have hclosing : Bytes.ScansTo (")" ++ rest) (.closing :: word) :=
    .cons .closing trivial hrest
  have hright := hg (")" ++ rest) _ (Bytes.endsName_cons (by decide) rest) hclosing
  have hleft := hf _ _ (hends _) (hsign _ _ hright)
  have hall : Bytes.ScansTo ("(" ++ f.printOnto (between ++ g.printOnto (")" ++ rest)))
      (.opening :: (f.symbols ++ (sign :: (g.symbols ++ .closing :: word)))) :=
    .cons .opening trivial hleft
  simpa using hall

/-- A sign between two spaces. -/
theorem scansTo_spaced (sign : Symbol) (hsign : ∀ after, sign.EndsBefore after)
    {after : Bytes} {word : List Symbol} (h : after.ScansTo word) :
    Bytes.ScansTo (32 :: (sign.text ++ 32 :: after)) (sign :: word) := by
  have hspace : Bytes.ScansTo (32 :: after) word := h.cons_space (by decide)
  exact (Bytes.ScansTo.cons sign (hsign _) hspace).cons_space (by decide)

/-- **The written form gives the symbols**, when the names are words. -/
theorem printsSymbols (f : Formula) (hnames : ∀ n ∈ f.names, n.IsWord) :
    f.PrintsSymbols := by
  induction f with
  | bot =>
      intro rest word hends hrest
      exact Bytes.ScansTo.cons (.name botName) ⟨botName_isWord, hends⟩ hrest
  | var n =>
      intro rest word hends hrest
      have hword := hnames n List.mem_cons_self
      exact Bytes.ScansTo.cons (.name n) ⟨hword, hends⟩ hrest
  | neg f ih =>
      intro rest word hends hrest
      exact Bytes.ScansTo.cons .bang trivial (ih hnames rest word hends hrest)
  | conj f g ihf ihg =>
      have hf := ihf fun n hn => hnames n (List.mem_append_left _ hn)
      have hg := ihg fun n hn => hnames n (List.mem_append_right _ hn)
      intro rest word _ hrest
      exact scansTo_binary hf hg (fun _ => Bytes.endsName_cons (by decide) _)
        (fun _ _ h => scansTo_spaced .and (fun _ => trivial) h) hrest
  | disj f g ihf ihg =>
      have hf := ihf fun n hn => hnames n (List.mem_append_left _ hn)
      have hg := ihg fun n hn => hnames n (List.mem_append_right _ hn)
      intro rest word _ hrest
      exact scansTo_binary hf hg (fun _ => Bytes.endsName_cons (by decide) _)
        (fun _ _ h => scansTo_spaced .or (fun _ => trivial) h) hrest

/-- **A written condition spells itself**, with a variable for the constant. -/
theorem spelledBy_print {f : Formula} (hnames : ∀ n ∈ f.names, n.IsWord) :
    f.nameBot.SpelledBy f.print := by
  have hscan := f.printsSymbols hnames [] [] Bytes.endsName_nil .nil
  rw [List.append_nil] at hscan
  obtain ⟨hword, hstop⟩ := hscan 1 0
  refine ⟨hstop, ?_⟩
  rw [show TokenStream.ofText f.print 1 = (Cursor.mk 1 0 (f.printOnto [])).tokens from rfl,
      hword]
  exact .ofConjunction (.ofUnary f.derives_symbols)

/-- **Conditions are written alike** exactly when they differ in nothing
but the constant and the variable that is written like it. -/
theorem print_eq_print_iff {f g : Formula} (hf : ∀ n ∈ f.names, n.IsWord)
    (hg : ∀ n ∈ g.names, n.IsWord) : f.print = g.print ↔ f.nameBot = g.nameBot := by
  constructor
  · intro h
    have hspelled := spelledBy_print hf
    rw [h] at hspelled
    exact hspelled.unique (spelledBy_print hg)
  · intro h
    rw [← print_nameBot f, h, print_nameBot g]

end Formula

/-! ## §3. What a text can spell. -/

/-- The variables of a phrase's tree are among its symbols. -/
theorem Derives.name_mem {rank : Rank} {word : List Symbol} {f : Formula}
    (h : Derives rank word f) : ∀ n ∈ f.names, .name n ∈ word := by
  induction h with
  | name n =>
      intro m hm
      rw [List.mem_singleton.1 hm]
      exact List.mem_cons_self
  | paren _ ih =>
      intro m hm
      exact List.mem_cons_of_mem _ (List.mem_append_left _ (ih m hm))
  | bang _ ih =>
      intro m hm
      exact List.mem_cons_of_mem _ (ih m hm)
  | ofPrimary _ ih | ofUnary _ ih | ofConjunction _ ih => exact ih
  | and _ _ ihf ihg | or _ _ ihf ihg =>
      intro m hm
      rcases List.mem_append.1 hm with hf | hg
      · exact List.mem_append_left _ (ihf m hf)
      · exact List.mem_append_right _ (List.mem_cons_of_mem _ (ihg m hg))

/-- The constant `bot` has no phrase. -/
theorem Derives.botFree {rank : Rank} {word : List Symbol} {f : Formula}
    (h : Derives rank word f) : f.BotFree := by
  induction h with
  | name n => trivial
  | paren _ ih | bang _ ih | ofPrimary _ ih | ofUnary _ ih | ofConjunction _ ih => exact ih
  | and _ _ ihf ihg | or _ _ ihf ihg => exact ⟨ihf, ihg⟩

namespace Formula

theorem SpelledBy.isWord {f : Formula} {text : Bytes} (h : f.SpelledBy text) :
    ∀ n ∈ f.names, n.IsWord := by
  intro n hn
  exact Cursor.isWord_of_name_mem_tokens _ (h.2.name_mem n hn)

theorem SpelledBy.botFree {f : Formula} {text : Bytes} (h : f.SpelledBy text) : f.BotFree :=
  h.2.botFree

/-- A condition that was read is read back from its written form as it is. -/
theorem SpelledBy.print {f : Formula} {text : Bytes} (h : f.SpelledBy text) :
    f.SpelledBy f.print := by
  have hprint := spelledBy_print h.isWord
  rw [nameBot_of_botFree h.botFree] at hprint
  exact hprint

end Formula

end PresenceTable
