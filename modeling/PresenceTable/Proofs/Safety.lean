/-
  PresenceTable.Proofs.Safety
  ───────────────────────────
  **NO LINE STOPS A CONVERSION.**

  What a conversion asks the store for is always there: the names that are
  scanned are not empty, the id that is answered for a condition belongs to
  a node, and so does the id that elimination answers with.  So every line
  is converted, the ids that are recorded can be followed down to the
  leaves, and the table can be written.

  The bounds on the ways down play no part in this.  An id is larger than
  the ids below it, so a way down from it is no longer than the id, and any
  larger bound gives an answer (`Terminates`).

  Main results:
    * `WellFormed.terminates` — every way down from an id of a node ends;
    * `Conversion.RecordsNodes.exists_write` — the table can be written,
      however many nodes there are;
    * `Conversion.never_stops` — only the reading of a listing can fail.
-/
import PresenceTable.Proofs.Accounting
import PresenceTable.Proofs.Model
import PresenceTable.Proofs.Store.Acyclic

namespace PresenceTable

/-! ## §1. Ways down. -/

namespace Store

/-- Every way down from the id ends.  Any bound above the id lets the tree
be found and lets elimination answer; so it is not the bound that ends
them. -/
structure Terminates (s : Store) (id : NodeId) : Prop where
  formulaWithin : ∀ bound : Nat, id.toNat < bound → ∃ f, s.formulaWithin bound id = .ok f
  eliminateWithin : ∀ (erased : Name → Bool) (bound : Nat), id.toNat < bound →
    ∃ id', (eliminateWithin erased bound s id).1 = .ok id'
  print : ∃ text, s.print id = .ok text
  eliminate : ∀ erased : Name → Bool, ∃ id', (s.eliminate erased id).1 = .ok id'

/-- **Every way down from the id of a node ends.** -/
theorem WellFormed.terminates {s : Store} (hs : s.WellFormed) {id : NodeId}
    (hid : id.toNat < s.size) : s.Terminates id := by
  obtain ⟨f, hf⟩ := hs.exists_denotes hid
  constructor
  · intro bound hbound
    exact ⟨f, hs.formulaWithin_eq hf hbound⟩
  · intro erased bound hbound
    obtain ⟨id', hok, -⟩ :=
      arrives_eliminateWithin erased bound s id hs.navigable hid hbound
    exact ⟨id', hok⟩
  · exact ⟨f.print, hs.print_eq hf⟩
  · intro erased
    obtain ⟨id', hok, -⟩ := hs.navigable.eliminate erased hid
    exact ⟨id', hok⟩

/-- A name is accepted as the name of a variable. -/
theorem var_name (s : Store) (n : Name) : s.var n.val = .ok (s.intern (.var n)) := by
  unfold var
  rw [dif_pos n.property]

theorem lt_size_of_holds {s : Store} {records : List Record} {rows : List (Bytes × Formula)}
    (h : List.Forall₂ s.Holds records rows) : ∀ r ∈ records, r.2.toNat < s.size := by
  induction h with
  | nil => intro r hr; cases hr
  | cons hfirst _ ih =>
      intro r hr
      rcases List.mem_cons.1 hr with rfl | hmem
      · exact hfirst.2.lt
      · exact ih r hmem

end Store

/-! ## §2. The table can be written. -/

/-- What the table says of a file was recorded for it. -/
theorem Model.mem_records_of_mem_entries {records : List Record} {r : Record}
    (h : r ∈ (empty.addAll records).entries) : r ∈ records := by
  have hget := mem_entries_iff.1 h
  rw [get?_addAll] at hget
  obtain ⟨before, after, hsplit, -⟩ := List.lookup_eq_some_iff.1 hget
  rw [← List.mem_reverse, hsplit]
  exact List.mem_append_right _ List.mem_cons_self

namespace Store

variable {s : Store} {id : NodeId}

theorem Navigable.acyclic (hs : s.Navigable) : s.Acyclic :=
  acyclic_of_descends fun id n hn child hchild => .inl (hs.descends id n hn child hchild)

theorem Navigable.complete (hs : s.Navigable) (hid : id.toNat < s.size) : s.Complete id := by
  intro below hbelow
  induction hbelow with
  | refl => exact hid
  | tail _ hchild ih =>
      obtain ⟨n, hn, hmem⟩ := hchild
      exact Nat.lt_trans (hs.descends _ n hn _ hmem) ih

/-- What is printed need not be the condition that was stored, once ids have
run out; but there is something to print. -/
theorem Navigable.exists_print (hs : s.Navigable) (hid : id.toNat < s.size) :
    ∃ text, s.print id = .ok text := by
  obtain ⟨f, hf⟩ := hs.acyclic.exists_formula (hs.complete hid)
  exact ⟨f.print, print_of_formula hf⟩

end Store

/-- Whatever is recorded is the id of a node. -/
structure Conversion.RecordsNodes (c : Conversion) : Prop where
  navigable : c.store.Navigable
  size_pos : 0 < c.store.size
  lt_size : ∀ r ∈ c.records.toList, r.2.toNat < c.store.size

theorem Conversion.recordsNodes_start : start.RecordsNodes where
  navigable := Store.wellFormed_empty.navigable
  size_pos := Nat.zero_lt_one
  lt_size := fun _ hr => absurd hr List.not_mem_nil

/-- The verdict on a line records ids of nodes. -/
theorem Verdict.lt_size_of_mem_records {s : Store} (hs : s.Navigable) (hpos : 0 < s.size)
    (erased : Name → Bool) (text : Bytes) (line : UInt32) :
    ∀ r ∈ (judge erased s text line).1.records,
      r.2.toNat < (judge erased s text line).2.size := by
  have hbot : ∀ t : Store, Store.Grows s t → Store.botId.toNat < t.size :=
    fun t hgrows => Nat.lt_of_lt_of_le hpos hgrows.size_le
  have hgrows := Store.grows_judge erased s text line
  unfold judge at hgrows ⊢
  cases htext : ListingLine.ofText text with
  | blank | malformed => exact fun _ hr => absurd hr List.not_mem_nil
  | entry path condition =>
      rw [htext] at hgrows
      dsimp only at hgrows ⊢
      split
      · intro r hr
        rw [List.mem_singleton.1 hr]
        exact hpos
      · next hmarker =>
        rw [if_neg hmarker] at hgrows
        cases hread : s.read condition line with
        | mk answer t =>
            obtain ⟨hnav, hlt⟩ := hs.read condition line
            rw [hread] at hnav hlt
            cases answer with
            | error error =>
                unfold judgeCondition at hgrows ⊢
                rw [hread] at hgrows ⊢
                intro r hr
                rw [List.mem_singleton.1 hr]
                exact hbot t hgrows
            | ok id =>
                obtain ⟨id', hok, -, hlt'⟩ := hnav.eliminate erased (hlt id rfl)
                rw [judgeCondition_of_read hread, hok] at hgrows ⊢
                intro r hr
                rcases List.mem_pair.1 hr with rfl | rfl
                · exact hbot _ hgrows
                · exact hlt'

namespace Conversion

theorem RecordsNodes.line {c : Conversion} (hc : c.RecordsNodes) (erased : Name → Bool)
    (text : Bytes) (number : UInt32) : (c.line erased text number).2.RecordsNodes where
  navigable := (line_ok hc.navigable erased text number).2
  size_pos := Nat.lt_of_lt_of_le hc.size_pos (grows_line erased c text number).size_le
  lt_size := by
    intro r hr
    rw [records_line, List.mem_append] at hr
    rcases hr with hold | hnew
    · exact Nat.lt_of_lt_of_le (hc.lt_size r hold) (grows_line erased c text number).size_le
    · rw [store_line]
      exact Verdict.lt_size_of_mem_records hc.navigable hc.size_pos erased text number r hnew

theorem RecordsNodes.lines (erased : Name → Bool) (ls : List (Bytes × UInt32)) :
    ∀ {c : Conversion}, c.RecordsNodes → (c.lines erased ls).2.RecordsNodes := by
  induction ls with
  | nil => intro c hc; exact hc
  | cons l ls ih =>
      intro c hc
      rw [lines_cons hc.navigable]
      exact ih (hc.line erased l.1 l.2)

/-- **The table can be written, however many nodes there are.** -/
theorem RecordsNodes.exists_write {c : Conversion} (hc : c.RecordsNodes) :
    ∃ text, c.model.write c.store = .ok text := by
  have hprint : ∀ r ∈ c.model.entries, c.store.print r.2 = .ok (c.store.printed r.2) := by
    intro r hr
    obtain ⟨text, htext⟩ :=
      hc.navigable.exists_print (hc.lt_size r (Model.mem_records_of_mem_entries hr))
    rw [Store.printed_eq htext]
    exact htext
  exact ⟨_, Model.write_ok hprint⟩

theorem Holds.recordsNodes {c : Conversion} {rows : List (Bytes × Formula)} (hc : c.Holds rows) :
    c.RecordsNodes where
  navigable := hc.wellFormed.navigable
  size_pos := Nat.lt_of_le_of_lt (Nat.zero_le _) hc.wellFormed.denotes_botId.lt
  lt_size := Store.lt_size_of_holds hc.records

theorem Holds.exists_write {c : Conversion} {rows : List (Bytes × Formula)} (hc : c.Holds rows) :
    ∃ text, c.model.write c.store = .ok text :=
  hc.recordsNodes.exists_write

end Conversion

/-! ## §3. Conversions. -/

namespace Conversion

/-- **No line stops a conversion.**  A line is converted whatever its bytes
are, it leaves the store well-formed, and it records ids of nodes; the
names that are scanned in it are not empty.  After any calls the table can
be written, every way down from a recorded or a read id ends, and a further
listing fails only if its reading breaks off. -/
theorem never_stops {s : Store} (hs : s.WellFormed) (types : TypeTable) :
    (∀ (c : Conversion) (text : Bytes) (number : UInt32), c.store = s →
        (c.line types.erases text number).2.store.size < UInt32.size - 1 →
        (c.line types.erases text number).1 = .ok ()
          ∧ (c.line types.erases text number).2.store.WellFormed
          ∧ ∃ emitted : List Record,
              (c.line types.erases text number).2.records.toList
                  = c.records.toList ++ emitted
                ∧ ∀ r ∈ emitted,
                    r.2.toNat < (c.line types.erases text number).2.store.size)
    ∧ (∀ (text : Bytes) (number : UInt32), ∀ t ∈ (TokenStream.ofText text number).tokens,
        ∀ n : Name, t.symbol = .name n →
          ∀ u : Store, u.var t.symbol.text = .ok (u.intern (.var n)))
    ∧ ∀ (calls : List Call) (c : Conversion),
        c = ({ store := s } : Conversion).callAll types.erases calls →
        c.store.size < UInt32.size - 1 →
        c.store.WellFormed
          ∧ (∃ text, c.model.write c.store = .ok text)
          ∧ (∀ r ∈ c.records.toList, c.store.Terminates r.2)
          ∧ (∀ (text : Bytes) (line : UInt32) (id : NodeId) (t : Store),
              c.store.read text line = (.ok id, t) → t.size < UInt32.size - 1 →
                t.Terminates id)
          ∧ ∀ input : Input,
              (c.listing types.erases input).2.store.size < UInt32.size - 1 →
              (c.listing types.erases input).1
                = if input.interrupted then .error (.interrupted input.lineCount)
                  else .ok () := by
  refine ⟨?_, ?_, ?_⟩
  · intro c text number hstore hsize
    rw [store_line] at hsize ⊢
    have hwf : c.store.WellFormed := hstore ▸ hs
    have hsettles : Settles (judge types.erases c.store text number)
        (lineTrees types.erases text) := judge_spec hwf (by omega)
    obtain ⟨hfault, hafter, hrecords⟩ := hsettles
    exact ⟨line_of_fault?_eq_none hfault, hafter, _, records_line types.erases c text number,
      Store.lt_size_of_holds hrecords⟩
  · intro text number t _ n hname u
    rw [hname]
    exact u.var_name n
  · intro calls c hcalls hsize
    -- calls come down to lines, and all lines are converted
    have hstart : ({ store := s } : Conversion).Holds [] := ⟨hs, .nil⟩
    have hlines := hstart.lines types.erases (calls.flatMap Call.lines)
    rw [← callAll_eq_lines calls hs.navigable, ← hcalls] at hlines
    obtain ⟨-, hc⟩ := hlines (by omega)
    refine ⟨hc.wellFormed, hc.exists_write, ?_, ?_, ?_⟩
    · intro r hr
      exact hc.wellFormed.terminates (Store.lt_size_of_holds hc.records r hr)
    · intro text line id t hread ht
      obtain ⟨f, -, hf⟩ := hc.wellFormed.toConsistent.of_read_ok hread (by omega)
      have hwf := hc.wellFormed.read text line
      rw [hread] at hwf
      exact (hwf (by dsimp only; omega)).terminates hf.lt
    · intro input hlisting
      exact (hc.listing types.erases input (by omega)).1

/-- A line whose condition can not be read, in a store that is not empty;
and the calls of a listing with a line of each kind, whose reading breaks
off. -/
theorem never_stops_interrupted :
    (({ store := (Store.empty.read "A || !B" 1).2 } : Conversion).line
        (TypeTable.empty.declare "X" "bool").erases "a.c: (X_MODULE && " 7).1 = .ok ()
      ∧ ∃ c : Conversion,
        c = ({ store := (Store.empty.read "A || !B" 1).2 } : Conversion).callAll
            (TypeTable.empty.declare "X" "bool").erases
            [.line "a.c: A || X_MODULE" 7,
              .listing ⟨"\nb.c: InvalidExpression()\nno file\nc.c: (A\nd.c: !B\ne.c: ", true⟩]
          ∧ c.model.write c.store = .ok "a.c;A\nb.c;false\nc.c;false\nd.c;B\n"
          ∧ (∀ r ∈ c.records.toList, c.store.Terminates r.2)
          ∧ (c.listing (TypeTable.empty.declare "X" "bool").erases ⟨"f.c: A", false⟩).1
            = .ok () := by
  have hs : (Store.empty.read "A || !B" 1).2.WellFormed :=
    Store.wellFormed_empty.read "A || !B" 1 (by decide +kernel)
  obtain ⟨hline, -, hcalls⟩ := never_stops hs (TypeTable.empty.declare "X" "bool")
  have hfirst := hline { store := (Store.empty.read "A || !B" 1).2 } "a.c: (X_MODULE && " 7 rfl
    (by decide +kernel)
  obtain ⟨-, -, hrecords, -, hlisting⟩ := hcalls
    [.line "a.c: A || X_MODULE" 7,
      .listing ⟨"\nb.c: InvalidExpression()\nno file\nc.c: (A\nd.c: !B\ne.c: ", true⟩]
    _ rfl (by decide +kernel)
  exact ⟨hfirst.1, _, rfl, by decide +kernel, hrecords,
    hlisting ⟨"f.c: A", false⟩ (by decide +kernel)⟩

end Conversion

end PresenceTable
