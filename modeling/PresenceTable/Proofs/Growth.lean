/-
  PresenceTable.Proofs.Growth
  ───────────────────────────
  **A STORE GROWS BY ONE NODE A BYTE AT MOST.**

  Reading a condition stores one node for each name and each sign, and
  elimination one more for each conjunction and disjunction.  A sign of
  these takes two bytes, so both together store no more nodes than the
  condition has bytes.  A text that is refused leaves no more behind than
  it has bytes either, and the lines of a listing lie side by side in its
  text.  So a listing that is short enough never runs out of ids.

  Main results:
    * `Store.size_add_le` / `Store.size_eliminateWithin_le` — what storing
      and eliminating a tree add;
    * `size_judge_le` — what one line adds;
    * `Conversion.size_listing_le` — what a listing adds.
-/
import Mathlib.Data.List.Flatten
import PresenceTable.Proofs.Accounting
import PresenceTable.Proofs.Formula.Weight

namespace PresenceTable

open Formula

/-! ## §1. Trees. -/

namespace Store

theorem size_intern_le (s : Store) (n : Node) : (s.intern n).2.size ≤ s.size + 1 := by
  cases hnew : s.index[n]? with
  | some id =>
      rw [intern_of_stored hnew]
      exact Nat.le_succ s.size
  | none => exact Nat.le_of_eq (size_intern_of_new hnew)

/-- **Storing a tree** leaves room for its elimination within its weight. -/
theorem size_add_le (f : Formula) :
    ∀ s : Store, (s.add f).2.size + f.forks ≤ s.size + f.weight := by
  induction f with
  | bot => intro s; exact size_intern_le s .bot
  | var n => intro s; exact size_intern_le s (.var n)
  | neg f ih =>
      intro s
      have hf := ih s
      have hnode := size_intern_le (s.add f).2 (.neg (s.add f).1)
      show ((s.add f).2.intern (.neg (s.add f).1)).2.size + f.forks ≤ s.size + (f.weight + 1)
      omega
  | conj f g ihf ihg =>
      intro s
      have hf := ihf s
      have hg := ihg (s.add f).2
      have hnode := size_intern_le ((s.add f).2.add g).2
        (.conj (s.add f).1 ((s.add f).2.add g).1)
      show (((s.add f).2.add g).2.intern (.conj (s.add f).1 ((s.add f).2.add g).1)).2.size
        + (f.forks + g.forks + 1) ≤ s.size + (f.weight + g.weight + 2)
      omega
  | disj f g ihf ihg =>
      intro s
      have hf := ihf s
      have hg := ihg (s.add f).2
      have hnode := size_intern_le ((s.add f).2.add g).2
        (.disj (s.add f).1 ((s.add f).2.add g).1)
      show (((s.add f).2.add g).2.intern (.disj (s.add f).1 ((s.add f).2.add g).1)).2.size
        + (f.forks + g.forks + 1) ≤ s.size + (f.weight + g.weight + 2)
      omega

theorem size_addAll_le (fs : List Formula) :
    ∀ s : Store, (s.addAll fs).size ≤ s.size + totalWeight fs := by
  induction fs with
  | nil => intro s; exact Nat.le_refl s.size
  | cons f fs ih =>
      intro s
      have hf := size_add_le f s
      have hfs := ih (s.add f).2
      show ((s.add f).2.addAll fs).size ≤ s.size + totalWeight (f :: fs)
      rw [totalWeight_cons]
      omega

/-! ### Elimination. -/

/-- Two operands, one after the other, and one node above them. -/
theorem size_eliminateBoth_le {erased : Name → Bool} {bound : Nat} {f g : Formula}
    {combine : Store → NodeId → NodeId → Except Fault NodeId × Store}
    (ihf : ∀ (s : Store) (id : NodeId), s.Denotes id f →
      (eliminateWithin erased bound s id).2.size ≤ s.size + f.forks)
    (ihg : ∀ (s : Store) (id : NodeId), s.Denotes id g →
      (eliminateWithin erased bound s id).2.size ≤ s.size + g.forks)
    (hcombine : ∀ (s : Store) (left right : NodeId),
      (combine s left right).2.size ≤ s.size + 1)
    {s : Store} {left right : NodeId} (hf : s.Denotes left f) (hg : s.Denotes right g) :
    (eliminateBoth erased bound s left right combine).2.size
      ≤ s.size + (f.forks + g.forks + 1) := by
  have hleft := ihf s left hf
  have hkept := grows_eliminateWithin erased bound s left
  unfold eliminateBoth
  rcases hl : eliminateWithin erased bound s left with ⟨fault | left', t⟩
  · rw [hl] at hleft
    dsimp only at hleft ⊢
    omega
  · -- the second operand has its tree in the larger store
    rw [hl] at hleft hkept
    have hright := ihg t right (hg.of_grows hkept)
    dsimp only at hleft ⊢
    rcases hr : eliminateWithin erased bound t right with ⟨fault | right', u⟩
    · rw [hr] at hright
      dsimp only at hright ⊢
      omega
    · rw [hr] at hright
      have hnode := hcombine u left' right'
      dsimp only at hright ⊢
      omega

/-- **Elimination of a tree** adds a node for each conjunction and
disjunction at most. -/
theorem size_eliminateWithin_le (erased : Name → Bool) (f : Formula) :
    ∀ (bound : Nat) (s : Store) (id : NodeId), s.Denotes id f →
      (eliminateWithin erased bound s id).2.size ≤ s.size + f.forks := by
  -- on the tree, over all bounds and stores: both change on the way down
  induction f with
  | bot | var =>
      intro bound s id hf
      cases bound with
      | zero => exact Nat.le_refl s.size
      | succ bound =>
          rw [eliminateWithin, show s.node? id = _ from hf]
          exact Nat.le_refl s.size
  | neg f ih =>
      intro bound s id hf
      obtain ⟨operand, hn, hf⟩ := hf
      cases bound with
      | zero => exact Nat.le_add_right s.size _
      | succ bound =>
          rw [eliminateWithin, hn]
          exact ih bound s operand hf
  | conj f g ihf ihg =>
      intro bound s id hf
      obtain ⟨left, right, hn, hf, hg⟩ := hf
      cases bound with
      | zero => exact Nat.le_add_right s.size _
      | succ bound =>
          rw [eliminateWithin_conj hn]
          exact size_eliminateBoth_le (ihf bound) (ihg bound)
            (fun t left right => size_intern_le t (.conj left right)) hf hg
  | disj f g ihf ihg =>
      intro bound s id hf
      obtain ⟨left, right, hn, hf, hg⟩ := hf
      cases bound with
      | zero => exact Nat.le_add_right s.size _
      | succ bound =>
          rw [eliminateWithin_disj hn]
          exact size_eliminateBoth_le (ihf bound) (ihg bound)
            (fun t left right => size_intern_le t (.disj left right)) hf hg

end Store

/-! ## §2. Lines. -/

theorem ListingLine.Gives.length_le {line path condition : Bytes}
    (h : Gives line path condition) : condition.length ≤ line.length := by
  obtain ⟨-, -, rest, rfl, rfl⟩ := h
  rw [List.length_drop, List.length_append, List.length_cons]
  omega

theorem size_judgeCondition_le {s : Store} (hs : s.WellFormed) (erased : Name → Bool)
    (path : Bytes) {condition : Bytes} (line : UInt32)
    (hroom : s.size + condition.length ≤ UInt32.size) :
    (judgeCondition erased s path condition line).2.size ≤ s.size + condition.length := by
  cases htext : Formula.ofText condition line with
  | ok f =>
      have hspelled := Formula.ofText_eq_ok_iff.1 htext
      have hweight := hspelled.weight_le
      have hadd := Store.size_add_le f s
      -- there are ids for all nodes of the tree, so its own id stands for it
      have hden : (s.add f).2.Denotes (s.add f).1 f := hs.denotes_add (by omega)
      have helim := Store.size_eliminateWithin_le erased f (2 * (s.add f).2.size + 1) _ _ hden
      rw [judgeCondition_of_read (Store.read_of_spelledBy hspelled s line)]
      show (Store.eliminate _ erased _).2.size ≤ _
      unfold Store.eliminate
      omega
  | error refusal =>
      have hweight := totalWeight_le_of_refused htext
      have hleft := Store.size_addAll_le refusal.finished s
      have hread : s.read condition line = (.error refusal.error, s.addAll refusal.finished) := by
        rw [Store.read_eq_take, htext]
        rfl
      unfold judgeCondition
      rw [hread]
      show (s.addAll refusal.finished).size ≤ _
      omega

/-- **One line** adds a node for each of its bytes at most. -/
theorem size_judge_le {s : Store} (hs : s.WellFormed) (erased : Name → Bool) {text : Bytes}
    (line : UInt32) (hroom : s.size + text.length ≤ UInt32.size) :
    (judge erased s text line).2.size ≤ s.size + text.length := by
  unfold judge
  cases htext : ListingLine.ofText text with
  | blank | malformed => exact Nat.le_add_right s.size _
  | entry path condition =>
      have hlength := (ListingLine.ofText_eq_entry_iff_gives.1 htext).length_le
      dsimp only
      split
      · exact Nat.le_add_right s.size _
      · have hcondition := size_judgeCondition_le hs erased path line
          (show s.size + condition.length ≤ UInt32.size by omega)
        omega

/-! ## §3. Listings. -/

/-- The number of bytes of these lines. -/
def totalBytes (lines : List Bytes) : Nat := lines.flatten.length

@[simp] theorem totalBytes_cons (line : Bytes) (lines : List Bytes) :
    totalBytes (line :: lines) = line.length + totalBytes lines := by
  simp [totalBytes]

/-- Pieces of a text are together not longer than the text. -/
theorem Bytes.totalBytes_split_le (separates : UInt8 → Bool) (s : Bytes) :
    totalBytes (split separates s) ≤ s.length := by
  induction s with
  | nil => exact Nat.le_refl 0
  | cons b s ih =>
      cases hb : separates b with
      | true =>
          rw [split_cons_of_separates hb, totalBytes_cons, List.length_nil, List.length_cons]
          omega
      | false =>
          -- the first piece is longer by one byte
          rw [split_cons_of_not_separates hb]
          obtain ⟨piece, later, hsplit⟩ :=
            List.exists_cons_of_ne_nil (split_ne_nil separates s)
          rw [hsplit, totalBytes_cons] at ih
          simp only [hsplit, List.head_cons, List.tail_cons, totalBytes_cons, List.length_cons]
          omega

theorem Input.totalBytes_lines_le (input : Input) : totalBytes input.lines ≤ input.text.length := by
  have hpieces := Bytes.totalBytes_split_le isNewline input.text
  have hsublist : input.lines.Sublist (Bytes.split isNewline input.text) := by
    unfold lines
    dsimp only
    split
    · exact List.dropLast_sublist _
    · exact List.Sublist.refl _
  have hsum : totalBytes input.lines ≤ totalBytes (Bytes.split isNewline input.text) :=
    hsublist.flatten.length_le
  exact Nat.le_trans hsum hpieces

namespace Conversion

theorem size_lines_le (erased : Name → Bool) (ls : List (Bytes × UInt32)) :
    ∀ {c : Conversion}, c.store.WellFormed →
      c.store.size + totalBytes (ls.map Prod.fst) ≤ UInt32.size →
      (c.lines erased ls).2.store.size ≤ c.store.size + totalBytes (ls.map Prod.fst) := by
  induction ls with
  | nil => intro c _ _; exact Nat.le_refl c.store.size
  | cons l ls ih =>
      intro c hc hroom
      obtain ⟨text, number⟩ := l
      rw [List.map_cons, totalBytes_cons] at hroom ⊢
      dsimp only at hroom ⊢
      have hline : (c.line erased text number).2.store.size ≤ c.store.size + text.length := by
        rw [store_line]
        exact size_judge_le hc erased number (by omega)
      have hwf : (c.line erased text number).2.store.WellFormed := by
        rw [store_line] at hline ⊢
        exact (judge_spec hc (by omega)).2.1
      have hlater := ih hwf (by omega)
      rw [lines_cons hc.navigable]
      omega

/-- **A listing** adds a node for each of its bytes at most. -/
theorem size_listing_le {c : Conversion} (hc : c.store.WellFormed) (erased : Name → Bool)
    (input : Input) (hroom : c.store.size + input.text.length ≤ UInt32.size) :
    (c.listing erased input).2.store.size ≤ c.store.size + input.text.length := by
  have hbytes := input.totalBytes_lines_le
  rw [← map_fst_numberedLines] at hbytes
  have hlines := size_lines_le erased input.numberedLines hc (by omega)
  rw [listing_snd]
  omega

end Conversion

end PresenceTable
