/-
  PresenceTable.Proofs.Store.Postorder
  ────────────────────────────────────
  **WHAT A READING ADDS, AND IN WHICH ORDER.**

  A tree is stored from the leaves up and from left to right, and what has an
  id already is not stored again.  So the trees of a store, listed by their
  ids, grow in a way that does not mention ids at all:

      trees after = trees before ++ parts of the tree in postorder,
                                    each where it occurs first,
                                    without the trees before

  The tree itself is the last of its parts, so a new tree has the last id.
  The new variables are the new names of the text, since reading a text
  keeps its names in their order.

  Main results:
    * `foldl_noteNew` — noting what is new, in closed form;
    * `WellFormed.trees_add` — the trees of a store after storing one more;
    * `WellFormed.last_or_known` — the id of a new tree;
    * `read_appends_parts` — what reading a text adds.
-/
import PresenceTable.Proofs.Store.Read
import PresenceTable.Proofs.Store.Stages

namespace PresenceTable

/-! ## §1. First occurrences. -/

section FirstOccurrences

variable {α β : Type} [BEq α] [LawfulBEq α] [BEq β] [LawfulBEq β]

/-- What is known, with one thing more behind it if that is new. -/
def noteNew (known : List α) (a : α) : List α := if a ∈ known then known else known ++ [a]

theorem eraseDups_filter (p : α → Bool) :
    ∀ l : List α, (l.filter p).eraseDups = l.eraseDups.filter p
  | [] => rfl
  | a :: l => by
      have hlt : (l.filter fun b => ! b == a).length < l.length + 1 :=
        Nat.lt_succ_of_le (List.length_filter_le _ l)
      have hrest := eraseDups_filter p (l.filter fun b => ! b == a)
      rw [List.filter_filter] at hrest
      rw [List.eraseDups_cons, List.filter_cons, List.filter_cons, ← hrest]
      by_cases ha : p a = true
      · rw [if_pos ha, if_pos ha, List.eraseDups_cons, List.filter_filter]
        simp only [Bool.and_comm]
      · rw [if_neg ha, if_neg ha]
        -- what passes the test is not the first element anyway
        congr 1
        refine List.filter_congr fun b _ => ?_
        by_cases hb : b = a
        · simp [hb, ha]
        · simp [hb]
termination_by l => l.length

theorem eraseDups_map {f : α → β} (hf : Function.Injective f) :
    ∀ l : List α, (l.map f).eraseDups = l.eraseDups.map f
  | [] => rfl
  | a :: l => by
      have hlt : (l.filter fun b => ! b == a).length < l.length + 1 :=
        Nat.lt_succ_of_le (List.length_filter_le _ l)
      have hbeq : (fun b => ! b == f a) ∘ f = fun b => ! b == a := by
        funext b
        simp [hf.eq_iff]
      rw [List.map_cons, List.eraseDups_cons, List.eraseDups_cons, List.map_cons,
        List.filter_map, hbeq, eraseDups_map hf]
termination_by l => l.length

/-- **Noting what is new**, one after the other, appends the first
occurrences of what was not known. -/
theorem foldl_noteNew (l : List α) :
    ∀ known : List α, l.foldl noteNew known = known ++ l.eraseDups.filter (· ∉ known) := by
  induction l with
  | nil => intro known; exact (List.append_nil known).symm
  | cons a l ih =>
      intro known
      rw [List.foldl_cons, ih, List.eraseDups_cons, eraseDups_filter, List.filter_cons,
        List.filter_filter]
      by_cases ha : a ∈ known
      · have hknown : noteNew known a = known := if_pos ha
        rw [hknown, if_neg (by simpa using ha)]
        congr 1
        refine List.filter_congr fun b _ => ?_
        by_cases hb : b = a
        · simp [hb, ha]
        · simp [hb]
      · have hknown : noteNew known a = known ++ [a] := if_neg ha
        rw [hknown, if_pos (by simpa using ha), List.append_assoc, List.singleton_append]
        congr 2
        refine List.filter_congr fun b _ => ?_
        by_cases hb : b = a <;> simp [hb]

end FirstOccurrences

/-! ## §2. The trees of a store. -/

namespace Store

/-- The trees of a store, in the order of their ids. -/
def trees (s : Store) : List Formula :=
  (List.range s.size).filterMap fun i => (s.formula (UInt32.ofNat i)).toOption

variable {s : Store} {n : Node} {f g : Formula} {id : NodeId}

/-- A node is the top of one tree only. -/
theorem TopOf.unique (hf : s.TopOf n f) (hg : s.TopOf n g) : f = g := by
  cases hf with
  | bot => cases hg; rfl
  | var n => cases hg; rfl
  | neg hf =>
      cases hg with
      | neg hg => rw [hf.unique hg]
  | conj hf hf' =>
      cases hg with
      | conj hg hg' => rw [hf.unique hg, hf'.unique hg']
  | disj hf hf' =>
      cases hg with
      | disj hg hg' => rw [hf.unique hg, hf'.unique hg']

/-- A tree has one top only. -/
theorem TopOf.node_unique (hs : s.Consistent) {m : Node} (hm : s.TopOf m f) (hn : s.TopOf n f) :
    m = n := by
  cases hm with
  | bot => cases hn; rfl
  | var n => cases hn; rfl
  | neg hm =>
      cases hn with
      | neg hn => rw [hm.id_unique hs hn]
  | conj hm hm' =>
      cases hn with
      | conj hn hn' => rw [hm.id_unique hs hn, hm'.id_unique hs hn']
  | disj hm hm' =>
      cases hn with
      | disj hn hn' => rw [hm.id_unique hs hn, hm'.id_unique hs hn']

/-- **Each node is the top of its tree.** -/
theorem WellFormed.forall₂_trees (hs : s.WellFormed) :
    List.Forall₂ s.TopOf s.nodes.toList s.trees := by
  have hfront : ∀ k ≤ s.size, List.Forall₂ s.TopOf (s.nodes.toList.take k)
      ((List.range k).filterMap fun i => (s.formula (UInt32.ofNat i)).toOption) := by
    intro k
    induction k with
    | zero => intro _; exact .nil
    | succ k ih =>
        intro hk
        have hnode := node?_ofNat hs.size_le hk
        obtain ⟨f, hf⟩ := hs.exists_denotes (node?_eq_some_lt hnode)
        obtain ⟨m, hm, htop⟩ := denotes_iff.1 hf
        rw [hnode] at hm
        cases hm
        have hlast : (s.nodes.toList)[k]? = some s.nodes[k] := by
          rw [Array.getElem?_toList, Array.getElem?_eq_getElem hk]
        rw [List.take_add_one, hlast, List.range_succ, List.filterMap_append,
          List.filterMap_cons, hs.formula_eq hf]
        exact List.rel_append (ih (Nat.le_of_succ_le hk)) (.cons htop .nil)
  have hall := hfront s.size (Nat.le_refl _)
  rwa [List.take_of_length_le (Nat.le_refl s.size)] at hall

theorem WellFormed.trees_eq (hs : s.WellFormed) {fs : List Formula}
    (h : List.Forall₂ s.TopOf s.nodes.toList fs) : s.trees = fs :=
  List.right_unique_forall₂' (fun _ _ _ hf hg => hf.unique hg) hs.forall₂_trees h

theorem WellFormed.length_trees (hs : s.WellFormed) : s.trees.length = s.size :=
  hs.forall₂_trees.length_eq.symm

/-- The tree at a position is that of the id. -/
theorem WellFormed.denotes_of_getElem? (hs : s.WellFormed) {i : Nat}
    (h : s.trees[i]? = some f) : s.Denotes (UInt32.ofNat i) f := by
  have hi : i < s.size := hs.length_trees ▸ (List.getElem?_eq_some_iff.1 h).1
  have htop := List.forall₂_iff_get.1 hs.forall₂_trees |>.2 i hi (hs.length_trees ▸ hi)
  obtain ⟨_, hf⟩ := List.getElem?_eq_some_iff.1 h
  refine denotes_iff.2 ⟨s.nodes[i], node?_ofNat hs.size_le hi, ?_⟩
  rw [← hf]
  exact htop

theorem WellFormed.getElem?_trees (hs : s.WellFormed) (h : s.Denotes id f) :
    s.trees[id.toNat]? = some f := by
  have hlt : id.toNat < s.trees.length := hs.length_trees ▸ h.lt
  have hget := List.getElem?_eq_getElem hlt
  have hden := hs.denotes_of_getElem? hget
  rw [UInt32.ofNat_toNat] at hden
  rw [hget, hden.unique h]

/-- A tree is listed when some id stands for it. -/
theorem WellFormed.mem_trees_iff (hs : s.WellFormed) : f ∈ s.trees ↔ ∃ id, s.Denotes id f := by
  constructor
  · intro h
    obtain ⟨i, hi⟩ := List.mem_iff_getElem?.1 h
    exact ⟨_, hs.denotes_of_getElem? hi⟩
  · rintro ⟨id, h⟩
    exact List.mem_of_getElem? (hs.getElem?_trees h)

/-! ## §3. Storing a tree. -/

/-- A node that is interned adds its tree, if that is new. -/
theorem WellFormed.trees_intern (hs : s.WellFormed) (htop : s.TopOf n f)
    (hsize : (s.intern n).2.size ≤ UInt32.size) :
    (s.intern n).2.trees = noteNew s.trees f := by
  cases hnew : s.index[n]? with
  | some id =>
      have hf : s.Denotes id f := denotes_iff.2 ⟨n, (hs.index_iff n id).1 hnew, htop⟩
      rw [intern_of_stored hnew]
      exact (if_pos (hs.mem_trees_iff.2 ⟨id, hf⟩)).symm
  | none =>
      have hf : f ∉ s.trees := by
        intro h
        obtain ⟨id, hid⟩ := hs.mem_trees_iff.1 h
        obtain ⟨m, hm, htop'⟩ := denotes_iff.1 hid
        rw [htop'.node_unique hs.toConsistent htop] at hm
        rw [(hs.index_iff n id).2 hm] at hnew
        cases hnew
      have hnodes : (s.intern n).2.nodes.toList = s.nodes.toList ++ [n] := by
        simp [Store.intern, hnew]
      have hgrows := grows_intern s n
      rw [show noteNew s.trees f = s.trees ++ [f] from if_neg hf]
      refine (hs.intern_top htop hsize).1.trees_eq ?_
      rw [hnodes]
      exact List.rel_append (hs.forall₂_trees.imp fun _ _ h => h.of_grows hgrows)
        (.cons (htop.of_grows hgrows) .nil)

/-- **The trees of a store after storing one more**: its parts are noted, in
postorder. -/
theorem WellFormed.trees_add :
    ∀ {s : Store}, s.WellFormed → (s.add f).2.size ≤ UInt32.size →
      (s.add f).2.trees = f.parts.foldl noteNew s.trees := by
  induction f with
  | bot => intro s hs hsize; exact hs.trees_intern .bot hsize
  | var n => intro s hs hsize; exact hs.trees_intern (.var n) hsize
  | neg f ih =>
      intro s hs hsize
      have hsizef := Nat.le_trans (grows_intern (s.add f).2 _).size_le hsize
      obtain ⟨hs', hf⟩ := hs.add hsizef
      rw [Formula.parts, List.foldl_append, ← ih hs hsizef]
      exact hs'.trees_intern (.neg hf) hsize
  | conj f g ihf ihg | disj f g ihf ihg =>
      intro s hs hsize
      have hsizeg : ((s.add f).2.add g).2.size ≤ UInt32.size :=
        Nat.le_trans (grows_intern _ _).size_le hsize
      have hgrows := grows_add g (s.add f).2
      have hsizef := Nat.le_trans hgrows.size_le hsizeg
      obtain ⟨hs', hf⟩ := hs.add hsizef
      obtain ⟨hs'', hg⟩ := hs'.add hsizeg
      rw [Formula.parts, List.foldl_append, List.foldl_append, ← ihf hs hsizef,
        ← ihg hs' hsizeg]
      exact hs''.trees_intern (by constructor; exacts [hf.of_grows hgrows, hg]) hsize

/-- The parts of a tree stand before it. -/
theorem WellFormed.exists_le_of_mem_parts (hs : s.WellFormed) :
    ∀ {id : NodeId}, s.Denotes id f → ∀ g ∈ f.parts,
      ∃ part, s.Denotes part g ∧ part.toNat ≤ id.toNat := by
  induction f with
  | bot | var n =>
      intro id hid g hg
      rw [List.mem_singleton.1 hg]
      exact ⟨id, hid, Nat.le_refl _⟩
  | neg f ih =>
      intro id hid g hg
      have htop := hid
      obtain ⟨operand, hn, hf⟩ := htop
      have hlt := hs.descends id _ hn operand (by simp [Node.children])
      rcases List.mem_append.1 hg with hpart | hself
      · obtain ⟨part, hg, hle⟩ := ih hf g hpart
        exact ⟨part, hg, by omega⟩
      · rw [List.mem_singleton.1 hself]
        exact ⟨id, hid, Nat.le_refl _⟩
  | conj f₁ f₂ ih₁ ih₂ | disj f₁ f₂ ih₁ ih₂ =>
      intro id hid g hg
      have htop := hid
      obtain ⟨left, right, hn, hf₁, hf₂⟩ := htop
      have hleft := hs.descends id _ hn left (by simp [Node.children])
      have hright := hs.descends id _ hn right (by simp [Node.children])
      rcases List.mem_append.1 hg with hparts | hself
      · rcases List.mem_append.1 hparts with hpart | hpart
        · obtain ⟨part, hg, hle⟩ := ih₁ hf₁ g hpart
          exact ⟨part, hg, by omega⟩
        · obtain ⟨part, hg, hle⟩ := ih₂ hf₂ g hpart
          exact ⟨part, hg, by omega⟩
      · rw [List.mem_singleton.1 hself]
        exact ⟨id, hid, Nat.le_refl _⟩

/-- The parts of a tree that a store does not have, in postorder and each
where it occurs first. -/
def newParts (s : Store) (f : Formula) : List Formula := f.parts.eraseDups.filter (· ∉ s.trees)

theorem WellFormed.trees_add_eq (hs : s.WellFormed) (hsize : (s.add f).2.size ≤ UInt32.size) :
    (s.add f).2.trees = s.trees ++ s.newParts f := by
  rw [hs.trees_add hsize, foldl_noteNew]
  rfl

/-- **A new tree has the last id**, and a tree that is stored already changes
nothing. -/
theorem WellFormed.last_or_known (hs : s.WellFormed) (hsize : (s.add f).2.size ≤ UInt32.size) :
    ((s.add f).2 = s ∧ (s.add f).1.toNat < s.size)
      ∨ (s.size < (s.add f).2.size ∧ (s.add f).1.toNat + 1 = (s.add f).2.size) := by
  obtain ⟨hadd, hden⟩ := hs.add hsize
  by_cases hf : f ∈ s.trees
  · obtain ⟨id, hid⟩ := hs.mem_trees_iff.1 hf
    rw [hs.add_of_denotes hid]
    exact .inl ⟨rfl, hid.lt⟩
  · have htrees := hs.trees_add_eq hsize
    have hmem : f ∈ s.newParts f := by
      simp [newParts, hf, f.self_mem_parts]
    have hlength := congrArg List.length htrees
    rw [hadd.length_trees, List.length_append, hs.length_trees] at hlength
    have hpos := List.length_pos_of_mem hmem
    -- the last new tree is a part, so the tree is not in front of it
    have hlast : (s.newParts f)[(s.newParts f).length - 1]?
        = some (s.newParts f)[(s.newParts f).length - 1] :=
      List.getElem?_eq_getElem (by omega)
    have hpart := List.mem_of_getElem? hlast
    obtain ⟨part, hpart, hle⟩ := hadd.exists_le_of_mem_parts hden _
      (List.mem_eraseDups.1 (List.mem_filter.1 hpart).1)
    have hend : (s.add f).2.trees[(s.add f).2.size - 1]?
        = some (s.newParts f)[(s.newParts f).length - 1] := by
      rw [htrees, List.getElem?_append_right (by rw [hs.length_trees]; omega), hs.length_trees,
        ← hlast]
      congr 1
      omega
    have hid := hpart.id_unique hadd.toConsistent (hadd.denotes_of_getElem? hend)
    rw [hid, UInt32.toNat_ofNat_of_lt' (by omega)] at hle
    have hlt := hden.lt
    exact .inr ⟨by omega, by omega⟩

end Store

/-! ## §4. Variables. -/

/-- The name that a symbol is, if it is one. -/
def Symbol.name? : Symbol → Option Name
  | .name n => some n
  | .bang | .and | .or | .opening | .closing => none

/-- The names among the tokens, from left to right. -/
def TokenStream.names (stream : TokenStream) : List Name :=
  (stream.tokens.map Token.symbol).filterMap Symbol.name?

/-- **The tree of a phrase has the names of the phrase**, in their order. -/
theorem Derives.filterMap_name? {rank : Rank} {word : List Symbol} {f : Formula}
    (h : Derives rank word f) : word.filterMap Symbol.name? = f.names := by
  induction h with
  | name n => rfl
  | paren _ ih =>
      rw [List.filterMap_cons_none rfl, List.filterMap_append, ih]
      exact List.append_nil _
  | ofPrimary _ ih | ofUnary _ ih | ofConjunction _ ih => exact ih
  | bang _ ih =>
      rw [List.filterMap_cons_none rfl]
      exact ih
  | and _ _ ihf ihg | or _ _ ihf ihg =>
      rw [List.filterMap_append, List.filterMap_cons_none rfl, ihf, ihg]
      rfl

theorem Formula.SpelledBy.names_eq {f : Formula} {text : Bytes} (h : f.SpelledBy text)
    (line : UInt32) : (TokenStream.ofText text line).names = f.names := by
  unfold TokenStream.names
  rw [TokenStream.ofText_onLine text 1 line, TokenStream.map_symbol_onLine]
  exact h.2.filterMap_name?

/-- Whether a tree is a variable. -/
def Formula.isVar : Formula → Bool
  | .var _ => true
  | .bot | .neg _ | .conj _ _ | .disj _ _ => false

theorem Formula.filter_isVar_parts (f : Formula) :
    f.parts.filter Formula.isVar = f.names.map .var := by
  induction f with
  | bot | var => rfl
  | neg f ih =>
      rw [parts, List.filter_append, ih]
      exact List.append_nil _
  | conj f g ihf ihg | disj f g ihf ihg =>
      rw [parts, List.filter_append, List.filter_append, ihf, ihg, names, List.map_append]
      exact List.append_nil _

namespace Store

variable {s : Store}

theorem countP_isVar_of_forall₂ {ns : List Node} {fs : List Formula}
    (h : List.Forall₂ s.TopOf ns fs) : ns.countP Node.isVar = fs.countP Formula.isVar := by
  induction h with
  | nil => rfl
  | cons htop _ ih =>
      rw [List.countP_cons, List.countP_cons, ih]
      cases htop <;> rfl

theorem WellFormed.variableCount_eq_countP (hs : s.WellFormed) :
    s.variableCount = s.trees.countP Formula.isVar := by
  rw [hs.variableCount_eq]
  exact countP_isVar_of_forall₂ hs.forall₂_trees

/-- A variable is listed when its node is stored. -/
theorem WellFormed.var_mem_trees_iff (hs : s.WellFormed) (n : Name) :
    .var n ∈ s.trees ↔ .var n ∈ s.nodes.toList := by
  rw [hs.mem_trees_iff]
  constructor
  · rintro ⟨id, hid⟩
    exact List.mem_of_getElem? (Array.getElem?_toList.trans hid)
  · intro h
    obtain ⟨id, hid⟩ := hs.exists_index h
    exact ⟨id, (hs.index_iff _ _).1 hid⟩

/-- The new variables among the parts of a tree are its new names. -/
theorem WellFormed.filter_isVar_newParts (hs : s.WellFormed) (f : Formula) :
    (s.newParts f).filter Formula.isVar
      = (f.names.eraseDups.filter fun n => .var n ∉ s.nodes.toList).map .var := by
  have hinj : Function.Injective Formula.var := fun _ _ h => Formula.var.inj h
  have hnew : (fun g => decide (g ∉ s.trees)) ∘ Formula.var
      = fun n => decide (Node.var n ∉ s.nodes.toList) := by
    funext n
    simp [hs.var_mem_trees_iff]
  unfold newParts
  rw [List.filter_filter, List.filter_congr (fun _ _ => Bool.and_comm _ _), ← List.filter_filter,
    ← eraseDups_filter, Formula.filter_isVar_parts, eraseDups_map hinj, List.filter_map, hnew]

/-! ## §5. Reading a text. -/

/-- **What reading a text adds.**  Let a text be read, in a store that has
ids for all nodes afterwards.  The nodes that were there stay where they are.
Behind them stand the parts of the condition that were not stored, each where
it occurs first when the condition is walked from the leaves up and from left
to right, and nothing else; the trees are listed by their ids.  The id that is
answered is the last one, or nothing was added and it was known.  And as many
variables are new as there are different names in the text that had none. -/
theorem read_appends_parts {s t : Store} (hs : s.WellFormed) {text : Bytes} {line : UInt32}
    {id : NodeId} (hread : s.read text line = (.ok id, t)) (hsize : t.size < UInt32.size - 1) :
    ∃ f : Formula, f.SpelledBy text ∧ t.formula id = .ok f
      ∧ s.nodes.toList <+: t.nodes.toList
      ∧ t.trees = s.trees ++ s.newParts f
      ∧ s.trees.length = s.size ∧ t.trees.length = t.size
      ∧ (∀ (i : Nat) (g : Formula), t.trees[i]? = some g → t.formula (UInt32.ofNat i) = .ok g)
      ∧ ((t = s ∧ id.toNat < s.size) ∨ (s.size < t.size ∧ id.toNat + 1 = t.size))
      ∧ t.variableCount = s.variableCount
          + ((TokenStream.ofText text line).names.eraseDups.filter
              fun n => .var n ∉ s.nodes.toList).length := by
  have hsize' : t.size ≤ UInt32.size := by omega
  obtain ⟨f, hf, -⟩ := hs.toConsistent.of_read_ok hread hsize'
  rw [read_of_spelledBy hf] at hread
  cases hread
  obtain ⟨ht, hden⟩ := hs.add hsize'
  have htrees := hs.trees_add_eq hsize'
  refine ⟨f, hf, ht.formula_eq hden, Grows.nodes_prefix (grows_add f s), htrees, hs.length_trees,
    ht.length_trees, fun i g hi => ht.formula_eq (ht.denotes_of_getElem? hi),
    hs.last_or_known hsize', ?_⟩
  rw [ht.variableCount_eq_countP, htrees, List.countP_append, hs.variableCount_eq_countP,
    hf.names_eq, List.countP_eq_length_filter (l := s.newParts f), hs.filter_isVar_newParts,
    List.length_map]

/-- A text with a part that is stored already, which occurs twice in it, and
with a new name in front of the known ones. -/
theorem read_appends_parts_shared :
    ((empty.read "A && B" 1).2.read "!(C || A && B) && (A && B || !C)" 7).1 = .ok 9
      ∧ ((empty.read "A && B" 1).2.read "!(C || A && B) && (A && B || !C)" 7).2.trees.map
            Formula.print
          = ["false", "A", "B", "(A && B)", "C", "(C || (A && B))", "!(C || (A && B))", "!C",
              "((A && B) || !C)", "(!(C || (A && B)) && ((A && B) || !C))"]
      ∧ (∃ f : Formula, f.SpelledBy "!(C || A && B) && (A && B || !C)"
          ∧ ((empty.read "A && B" 1).2.read "!(C || A && B) && (A && B || !C)" 7).2.trees
            = (empty.read "A && B" 1).2.trees ++ (empty.read "A && B" 1).2.newParts f)
      ∧ ((empty.read "A && B" 1).2.read "!(C || A && B) && (A && B || !C)" 7).2.variableCount
          = 2 + 1 := by
  have hs : (empty.read "A && B" 1).2.WellFormed :=
    wellFormed_empty.read "A && B" 1 (by decide +kernel)
  have hok : ((empty.read "A && B" 1).2.read "!(C || A && B) && (A && B || !C)" 7).1 = .ok 9 := by
    decide +kernel
  obtain ⟨f, hf, -, -, htrees, -, -, -, -, hcount⟩ :=
    read_appends_parts hs (Prod.ext hok rfl) (by decide +kernel)
  exact ⟨hok, by decide +kernel, ⟨f, hf, htrees⟩, hcount.trans (by decide +kernel)⟩

end Store

end PresenceTable
