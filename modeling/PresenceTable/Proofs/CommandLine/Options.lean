/-
  PresenceTable.Proofs.CommandLine.Options
  ────────────────────────────────────────
  **WHAT WORDS ASK FOR.**

  A word is the name of a flag or of an option, long or short; or it begins
  with a dash all the same, and names nothing; or it is positional.  A flag
  is set by a word of its name and by nothing else.  A word that is the value
  of an option sets no flag, whatever it looks like.

  Main results:
    * `Word.ofText_cases` — the meaning of a word, by how it is spelled;
    * `selftest_eq_false` — without the word for it there is no self test.
-/
import PresenceTable.CommandLine.Options

namespace PresenceTable

/-! ## §1. Names of flags and options. -/

/-- The name of a flag, the short one if there is one and it is wanted. -/
def Flag.spelling : Flag → Bool → Bytes
  | .selftest, _ => "--selftest"
  | .stats, _ => "--stats"
  | .quiet, short => if short then "-q" else "--quiet"
  | .help, short => if short then "-h" else "--help"

/-- The name of an option, long or short. -/
def FileOption.spelling : FileOption → Bool → Bytes
  | .types, short => if short then "-t" else "--types"
  | .output, short => if short then "-o" else "--output"

/-- The word begins like the name of a flag or an option. -/
def Bytes.Dashed (word : Bytes) : Prop := word.head? = some '-'.toUInt8

instance Bytes.decidableDashed (word : Bytes) : Decidable word.Dashed :=
  inferInstanceAs (Decidable (word.head? = some '-'.toUInt8))

/-- The word begins like a name, but it is none. -/
structure Word.Unnamed (word : Bytes) : Prop where
  dashed : word.Dashed
  not_flag : ∀ (f : Flag) (short : Bool), word ≠ f.spelling short
  not_option : ∀ (option : FileOption) (short : Bool), word ≠ option.spelling short

namespace Word

theorem dashed_flag (f : Flag) (short : Bool) : (f.spelling short).Dashed := by
  unfold Bytes.Dashed
  cases f <;> cases short <;> decide

theorem dashed_option (option : FileOption) (short : Bool) : (option.spelling short).Dashed := by
  unfold Bytes.Dashed
  cases option <;> cases short <;> decide

theorem ofText_flag (f : Flag) (short : Bool) : ofText (f.spelling short) = .flag f := by
  cases f <;> cases short <;> decide

theorem ofText_option (option : FileOption) (short : Bool) :
    ofText (option.spelling short) = .option option := by
  cases option <;> cases short <;> decide

/-- The names are those of the flags and those of the options. -/
theorem spelled_of_mem_named {entry : Bytes × Word} (h : entry ∈ named) :
    (∃ f short, entry = (f.spelling short, .flag f))
      ∨ ∃ option short, entry = (option.spelling short, .option option) := by
  simp only [named, List.mem_cons, List.not_mem_nil, or_false] at h
  rcases h with rfl | rfl | rfl | rfl | rfl | rfl | rfl | rfl | rfl | rfl
  · exact .inl ⟨.selftest, false, rfl⟩
  · exact .inl ⟨.stats, false, rfl⟩
  · exact .inl ⟨.quiet, false, rfl⟩
  · exact .inl ⟨.quiet, true, rfl⟩
  · exact .inl ⟨.help, false, rfl⟩
  · exact .inl ⟨.help, true, rfl⟩
  · exact .inr ⟨.types, false, rfl⟩
  · exact .inr ⟨.types, true, rfl⟩
  · exact .inr ⟨.output, false, rfl⟩
  · exact .inr ⟨.output, true, rfl⟩

/-- **The meaning of a word**, by how it is spelled. -/
theorem ofText_cases (word : Bytes) :
    (∃ f short, word = f.spelling short ∧ ofText word = .flag f)
      ∨ (∃ option short, word = option.spelling short ∧ ofText word = .option option)
      ∨ (Unnamed word ∧ ofText word = .unknown)
      ∨ (¬ word.Dashed ∧ ofText word = .positional) := by
  cases hlookup : named.lookup word with
  | some meaning =>
      have hmem : (word, meaning) ∈ named := by
        obtain ⟨before, after, hnamed, -⟩ := List.lookup_eq_some_iff.1 hlookup
        rw [hnamed]
        simp
      rcases spelled_of_mem_named hmem with ⟨f, short, heq⟩ | ⟨option, short, heq⟩
      · cases heq
        exact .inl ⟨f, short, rfl, ofText_flag f short⟩
      · cases heq
        exact .inr (.inl ⟨option, short, rfl, ofText_option option short⟩)
  | none =>
      have hmeaning : ofText word = if word.Dashed then .unknown else .positional := by
        unfold ofText
        rw [hlookup]
        rfl
      by_cases hdashed : word.Dashed
      · rw [if_pos hdashed] at hmeaning
        refine .inr (.inr (.inl ⟨⟨hdashed, ?_, ?_⟩, hmeaning⟩))
        · rintro f short rfl
          cases hmeaning.symm.trans (ofText_flag f short)
        · rintro option short rfl
          cases hmeaning.symm.trans (ofText_option option short)
      · rw [if_neg hdashed] at hmeaning
        exact .inr (.inr (.inr ⟨hdashed, hmeaning⟩))

/-- A word that does not begin with a dash is positional. -/
theorem ofText_of_not_dashed {word : Bytes} (h : ¬ word.Dashed) : ofText word = .positional := by
  rcases ofText_cases word with
    ⟨f, short, rfl, -⟩ | ⟨option, short, rfl, -⟩ | ⟨hunnamed, -⟩ | ⟨-, hword⟩
  · exact absurd (dashed_flag f short) h
  · exact absurd (dashed_option option short) h
  · exact absurd hunnamed.dashed h
  · exact hword

theorem ofText_of_unnamed {word : Bytes} (h : Unnamed word) : ofText word = .unknown := by
  rcases ofText_cases word with
    ⟨f, short, heq, -⟩ | ⟨option, short, heq, -⟩ | ⟨-, hword⟩ | ⟨hdashed, -⟩
  · exact absurd heq (h.not_flag f short)
  · exact absurd heq (h.not_option option short)
  · exact hword
  · exact absurd h.dashed hdashed

theorem eq_of_ofText_eq_selftest {text : Bytes} (h : ofText text = .flag .selftest) :
    text = "--selftest" := by
  rcases ofText_cases text with
    ⟨f, short, rfl, hword⟩ | ⟨option, short, -, hword⟩ | ⟨-, hword⟩ | ⟨-, hword⟩
  · cases h.symm.trans hword
    rfl
  all_goals cases h.symm.trans hword

end Word

/-! ## §2. The flag of the self test. -/

namespace Options

/-- Only a word of that name sets the flag of the self test. -/
theorem selftest_of_readWords (o : Options) (words : List Bytes) :
    ∀ {after : Options}, ("--selftest" : Bytes) ∉ words → o.readWords words = .ok after →
      after.selftest = o.selftest := by
  fun_induction readWords o words with
  | case1 o =>
      intro after _ h
      cases h
      rfl
  | case2 o text later flag hword ih =>
      intro after hnot h
      rw [List.mem_cons, not_or] at hnot
      rw [ih hnot.2 h]
      cases flag with
      | selftest => exact absurd (Word.eq_of_ofText_eq_selftest hword).symm hnot.1
      | stats | quiet | help => rfl
  | case4 o text option hword path later ih =>
      -- the value of the option is passed over, also if it is the name of a flag
      intro after hnot h
      rw [List.mem_cons, List.mem_cons, not_or, not_or] at hnot
      rw [ih hnot.2.2 h]
      cases option <;> rfl
  | case7 o text later hword hinput ih =>
      intro after hnot h
      rw [List.mem_cons, not_or] at hnot
      exact ih hnot.2 h
  | case3 | case5 | case6 =>
      intro after _ h
      cases h

/-- **Without the word for it** there is no self test. -/
theorem selftest_eq_false {words : List Bytes} (hwords : ("--selftest" : Bytes) ∉ words)
    {o : Options} (h : ofWords words = .ok o) : o.selftest = false := by
  unfold ofWords at h
  cases hread : readWords {} words with
  | error error => rw [hread] at h; cases h
  | ok after =>
      rw [hread] at h
      change (if after.isComplete then _ else _) = _ at h
      split at h
      · cases h
        exact selftest_of_readWords {} words hwords hread
      · cases h

end Options

end PresenceTable
