/-
  PresenceTable.Proofs.Store.Printing
  ───────────────────────────────────
  **WRITING AND READING STORED CONDITIONS.**

  The written form of a stored condition is read back, into the same store,
  as the same condition, but for the constant `bot`, which comes back as a
  variable.  A tree that the store holds already is not stored again, so
  without the constant the same id is answered and no node is added.

  Main results:
    * `Consistent.read_of_denotes` — reading a text of a stored tree;
    * `read_print` — reading the written form of an id.
-/
import PresenceTable.Proofs.Formula.Printing
import PresenceTable.Proofs.Store.Read

namespace PresenceTable

namespace Store

/-- Reading a text that spells a stored tree answers with its id. -/
theorem Consistent.read_of_denotes {s : Store} (hs : s.Consistent) {id : NodeId}
    {f : Formula} {text : Bytes} (h : s.Denotes id f) (hf : f.SpelledBy text) (line : UInt32) :
    s.read text line = (.ok id, s) := by
  rw [read_of_spelledBy hf, hs.add_of_denotes h]

/-- **Reading what was written.**  The written form of an id whose names
are words is read as its condition, with a variable in place of the
constant `bot`; if there is no such constant, the id itself is answered and
nothing is stored.  Two such conditions are written alike exactly when they
agree but for that constant.  And what was read from a text is read again
from its written form. -/
theorem read_print {s : Store} (hs : s.WellFormed) :
    (∀ id : NodeId, id.toNat < s.size → ∃ f, s.formula id = .ok f ∧ s.print id = .ok f.print
      ∧ ((∀ n ∈ f.names, n.IsWord) →
          (∀ line, (s.read f.print line).2.size < UInt32.size - 1 →
            ∃ id', (s.read f.print line).1 = .ok id'
              ∧ (s.read f.print line).2.formula id' = .ok f.nameBot)
          ∧ (f.BotFree → ∀ line, s.read f.print line = (.ok id, s))
          ∧ ∀ g : Formula, (∀ n ∈ g.names, n.IsWord) →
              (f.print = g.print ↔ f.nameBot = g.nameBot)))
    ∧ ∀ (text : Bytes) (line : UInt32) (id : NodeId) (t : Store),
        s.read text line = (.ok id, t) → t.size < UInt32.size - 1 →
          ∃ written, t.print id = .ok written ∧ ∀ line', t.read written line' = (.ok id, t) := by
  constructor
  · intro id hid
    obtain ⟨f, hf⟩ := hs.exists_denotes hid
    refine ⟨f, hs.formula_eq hf, hs.print_eq hf, fun hnames => ⟨?_, ?_, ?_⟩⟩
    · intro line hsize
      have hspelled := Formula.spelledBy_print hnames
      rw [read_of_spelledBy hspelled] at hsize ⊢
      have hsize' : (s.add f.nameBot).2.size ≤ UInt32.size := by dsimp only at hsize; omega
      obtain ⟨hwf, hden⟩ := hs.add hsize'
      exact ⟨_, rfl, hwf.formula_eq hden⟩
    · intro hfree line
      have hspelled := Formula.spelledBy_print hnames
      rw [Formula.nameBot_of_botFree hfree] at hspelled
      exact hs.read_of_denotes hf hspelled line
    · intro g hg
      exact Formula.print_eq_print_iff hnames hg
  · intro text line id t hread hsize
    have hsize' : t.size ≤ UInt32.size := by omega
    have hwf := hs.read text line
    rw [hread] at hwf
    have hwf := hwf hsize'
    obtain ⟨f, hf, hden⟩ := hs.of_read_ok hread hsize'
    exact ⟨f.print, hwf.print_eq hden, fun line' => hwf.read_of_denotes hden hf.print line'⟩

/-- The constant `bot` under a conjunction comes back as a variable, and the
variable beside it is read back as it was. -/
theorem read_print_conj_bot :
    ((empty.read "A" 1).2.intern (.conj 1 0)).2.print 2 = .ok "(A && false)"
      ∧ (∃ id', (((empty.read "A" 1).2.intern (.conj 1 0)).2.read "(A && false)" 1).1 = .ok id'
          ∧ (((empty.read "A" 1).2.intern (.conj 1 0)).2.read "(A && false)" 1).2.formula id'
            = .ok (.conj (.var ⟨"A", by decide⟩) (.var ⟨"false", by decide⟩)))
      ∧ ((empty.read "A" 1).2.intern (.conj 1 0)).2.read "A" 7
          = (.ok 1, ((empty.read "A" 1).2.intern (.conj 1 0)).2) := by
  have hread : (empty.read "A" 1).2.WellFormed := wellFormed_empty.read "A" 1 (by decide +kernel)
  have hs : ((empty.read "A" 1).2.intern (.conj 1 0)).2.WellFormed := by
    refine hread.intern _ (by decide +kernel) fun child hchild => ?_
    rcases List.mem_pair.1 hchild with rfl | rfl <;> decide +kernel
  obtain ⟨hprint, -⟩ := read_print hs
  obtain ⟨f, hf, hfprint, hconj⟩ := hprint 2 (by decide +kernel)
  obtain ⟨g, hg, -, hvar⟩ := hprint 1 (by decide +kernel)
  have hfeq : f = .conj (.var ⟨"A", by decide⟩) .bot :=
    Except.ok.inj (hf.symm.trans (by decide +kernel))
  have hgeq : g = .var ⟨"A", by decide⟩ := Except.ok.inj (hg.symm.trans (by decide +kernel))
  subst hfeq hgeq
  have hword : ∀ n : Name, n ∈ [(⟨"A", by decide⟩ : Name)] → n.IsWord := by
    intro n hn
    rw [List.mem_singleton.1 hn]
    decide
  obtain ⟨hback, -, -⟩ := hconj hword
  obtain ⟨-, hsame, -⟩ := hvar hword
  exact ⟨hfprint, hback 1 (by decide +kernel), hsame trivial 7⟩

end Store

end PresenceTable
