/-
  PresenceTable.Proofs.CommandLine.FileTree
  ─────────────────────────────────────────
  **A WRITTEN FILE IS FOUND UNDER ITS PATH.**

  A path goes through directories and ends at a file, or where a file could
  be.  Writing there changes none of the directories on the way, so the
  same path leads to what was written; and it changes no other place.

  `Leads` says how a path leads to a place, one component after the other.

  Main results:
    * `leads_of_follow` / `Leads.follow_eq` — `Leads` is what following a
      path comes to;
    * `LeadsTo.write` — writing a file keeps the way to any file;
    * `LeadsTo.read?_write` — what was written is read under the same path;
    * `place?_eq_some_iff` / `read?_eq_some_iff` — which paths can be opened
      for writing, and what can be read under a path.
-/
import PresenceTable.CommandLine.FileTree

namespace PresenceTable

namespace FileTree

/-- The path leads to a file at this place, or to this place in a directory
where nothing stands. -/
def LeadsTo (t : FileTree) (path : Bytes) (place : Place) : Prop :=
  (∃ contents, t.locate path = .file place contents) ∨ t.locate path = .vacant place

/-! ## §1. One component after the other. -/

variable {t : FileTree}

/-! ### What the next component does. -/

theorem follow_itself (here : Place) (later : List Bytes) :
    t.follow here (itself :: later) = t.follow here later := by
  rw [follow.eq_def]
  dsimp only
  rw [if_pos rfl]

theorem follow_above (here : Place) (later : List Bytes) :
    t.follow here (above :: later) = t.follow here.dropLast later := by
  rw [follow.eq_def]
  dsimp only
  rw [if_neg (by decide), if_pos rfl]

theorem follow_long {here : Place} {name : Bytes} (hitself : name ≠ itself)
    (habove : name ≠ above) (hlong : name.length > maxNameLength) (later : List Bytes) :
    t.follow here (name :: later) = .unreachable := by
  rw [follow.eq_def]
  dsimp only
  rw [if_neg hitself, if_neg habove, if_pos hlong]

/-- The component is the name of an entry. -/
structure Names (name : Bytes) : Prop where
  ne_itself : name ≠ itself
  ne_above : name ≠ above
  length_le : ¬ name.length > maxNameLength

theorem follow_name {here : Place} {name : Bytes} (h : Names name) (later : List Bytes) :
    t.follow here (name :: later)
      = match t.get? (here ++ [name]), later with
        | some .directory, later => t.follow (here ++ [name]) later
        | some (.file contents), [] => .file (here ++ [name]) contents
        | some (.file _), _ :: _ => .unreachable
        | none, [] => .vacant (here ++ [name])
        | none, _ :: _ => .unreachable := by
  rw [follow.eq_def]
  dsimp only
  rw [if_neg h.ne_itself, if_neg h.ne_above]
  exact if_neg h.length_le

/-! ### Ways to a place. -/

/-- The components lead from a directory to a file, or to where one could
be.  Only the last of them may be no directory. -/
inductive Leads (t : FileTree) : Place → List Bytes → Place → Prop where
  | itself {here : Place} {later : List Bytes} {place : Place} :
      Leads t here later place → Leads t here (itself :: later) place
  | above {here : Place} {later : List Bytes} {place : Place} :
      Leads t here.dropLast later place → Leads t here (above :: later) place
  | down {here : Place} {name : Bytes} {later : List Bytes} {place : Place} (h : Names name)
      (hdirectory : t.get? (here ++ [name]) = some .directory) :
      Leads t (here ++ [name]) later place → Leads t here (name :: later) place
  | last {here : Place} {name : Bytes} (h : Names name)
      (hfile : t.get? (here ++ [name]) ≠ some .directory) :
      Leads t here [name] (here ++ [name])

/-- No directory stands at a place to which components lead. -/
theorem Leads.get?_ne {here : Place} {names : List Bytes} {place : Place}
    (h : t.Leads here names place) : t.get? place ≠ some .directory := by
  induction h with
  | itself _ ih | above _ ih | down _ _ _ ih => exact ih
  | last _ hfile => exact hfile

/-- What a path comes to that leads to this place. -/
def targetAt (t : FileTree) (place : Place) : Target :=
  match t.get? place with
  | some (.file contents) => .file place contents
  | some .directory | none => .vacant place

/-- **Following components that lead to a place** comes to it. -/
theorem Leads.follow_eq {here : Place} {names : List Bytes} {place : Place}
    (h : t.Leads here names place) : t.follow here names = t.targetAt place := by
  induction h with
  | itself _ ih => rw [follow_itself, ih]
  | above _ ih => rw [follow_above, ih]
  | down h hdirectory _ ih =>
      rw [follow_name h, hdirectory]
      exact ih
  | @last here name h hfile =>
      rw [follow_name h]
      unfold targetAt
      cases hget : t.get? (here ++ [name]) with
      | none => rfl
      | some entry =>
          cases entry with
          | directory => exact absurd hget hfile
          | file contents => rfl

/-- The target is a file at this place, or nothing there. -/
def Target.IsAt (place : Place) (target : Target) : Prop :=
  (∃ contents, target = .file place contents) ∨ target = .vacant place

theorem not_isAt_unreachable (place : Place) : ¬ Target.IsAt place .unreachable := by
  rintro (⟨contents, h⟩ | h) <;> cases h

/-- A name that is followed to a place leads there, by way of the directory
of that name or as the last component. -/
theorem leads_of_name {here : Place} {name : Bytes} {later : List Bytes} {place : Place}
    (hname : Names name)
    (ih : Target.IsAt place (t.follow (here ++ [name]) later) →
      t.Leads (here ++ [name]) later place)
    (h : Target.IsAt place (t.follow here (name :: later))) :
    t.Leads here (name :: later) place := by
  rw [follow_name hname] at h
  cases hget : t.get? (here ++ [name]) with
  | none =>
      have hfile : t.get? (here ++ [name]) ≠ some .directory := by simp [hget]
      rw [hget] at h
      cases later with
      | nil =>
          rcases h with ⟨contents, h⟩ | h <;> cases h
          exact .last hname hfile
      | cons next later => exact absurd h (not_isAt_unreachable place)
  | some entry =>
      rw [hget] at h
      cases entry with
      | directory => exact .down hname hget (ih h)
      | file old =>
          have hfile : t.get? (here ++ [name]) ≠ some .directory := by simp [hget]
          cases later with
          | nil =>
              rcases h with ⟨contents, h⟩ | h <;> cases h
              exact .last hname hfile
          | cons next later => exact absurd h (not_isAt_unreachable place)

/-- **Following components comes to a place** only if they lead there. -/
theorem leads_of_follow {names : List Bytes} :
    ∀ {here place : Place}, Target.IsAt place (t.follow here names) →
      t.Leads here names place := by
  induction names with
  | nil => intro here place h; rcases h with ⟨contents, h⟩ | h <;> cases h
  | cons name later ih =>
      intro here place h
      by_cases hitself : name = FileTree.itself
      · rw [hitself, follow_itself] at h
        rw [hitself]
        exact .itself (ih h)
      · by_cases habove : name = FileTree.above
        · rw [habove, follow_above] at h
          rw [habove]
          exact .above (ih h)
        · by_cases hlong : name.length > maxNameLength
          · rw [follow_long hitself habove hlong] at h
            exact absurd h (not_isAt_unreachable place)
          · exact leads_of_name ⟨hitself, habove, hlong⟩ ih h

/-- **Writing a file keeps the way to any file**, since it changes no
directory. -/
theorem Leads.write {here : Place} {names : List Bytes} {place : Place}
    (h : t.Leads here names place) {written : Place}
    (hwritten : t.get? written ≠ some .directory) (contents : Bytes) :
    (t.write written contents).Leads here names place := by
  induction h with
  | itself _ ih => exact .itself ih
  | above _ ih => exact .above ih
  | @down here name later place hname hdirectory _ ih =>
      have hother : written ≠ here ++ [name] := by
        intro heq
        rw [heq] at hwritten
        exact hwritten hdirectory
      refine .down hname ?_ ih
      rw [get?_write_of_ne t hother]
      exact hdirectory
  | @last here name hname hfile =>
      refine .last hname ?_
      by_cases heq : written = here ++ [name]
      · rw [← heq, get?_write_self t hwritten]
        simp
      · rw [get?_write_of_ne t heq]
        exact hfile

/-! ## §2. Paths. -/

theorem locate_of_admissible {path : Bytes} (h : ¬ (path = [] ∨ path.length ≥ pathLimit)) :
    t.locate path = t.follow (t.startOf path) (components path) :=
  if_neg h

theorem leadsTo_iff {path : Bytes} {place : Place} :
    t.LeadsTo path place ↔ ¬ (path = [] ∨ path.length ≥ pathLimit)
      ∧ t.Leads (t.startOf path) (components path) place := by
  constructor
  · intro h
    by_cases hpath : path = [] ∨ path.length ≥ pathLimit
    · unfold LeadsTo locate at h
      rw [if_pos hpath] at h
      exact absurd h (not_isAt_unreachable place)
    · unfold LeadsTo at h
      rw [locate_of_admissible hpath] at h
      exact ⟨hpath, leads_of_follow h⟩
  · intro h
    obtain ⟨hpath, hleads⟩ := h
    unfold LeadsTo
    rw [locate_of_admissible hpath, hleads.follow_eq]
    unfold targetAt
    split
    · exact .inl ⟨_, rfl⟩
    · exact .inr rfl
    · exact .inr rfl

theorem LeadsTo.get?_ne {path : Bytes} {place : Place} (h : t.LeadsTo path place) :
    t.get? place ≠ some .directory :=
  (leadsTo_iff.1 h).2.get?_ne

/-- What a path comes to that leads to a place. -/
theorem LeadsTo.locate_eq {path : Bytes} {place : Place} (h : t.LeadsTo path place) :
    t.locate path = t.targetAt place := by
  obtain ⟨hpath, hleads⟩ := leadsTo_iff.1 h
  rw [locate_of_admissible hpath, hleads.follow_eq]

/-- **A written file is found under each path** that led to its place before. -/
theorem LeadsTo.write {path : Bytes} {place : Place} (h : t.LeadsTo path place)
    {written : Place} (hwritten : t.get? written ≠ some .directory) (contents : Bytes) :
    (t.write written contents).LeadsTo path place := by
  obtain ⟨hpath, hleads⟩ := leadsTo_iff.1 h
  exact leadsTo_iff.2 ⟨hpath, hleads.write hwritten contents⟩

/-! ## §3. What is opened. -/

/-- The place that is opened when a path is opened for writing. -/
def place? (t : FileTree) (path : Bytes) : Option Place :=
  match t.locate path with
  | .file place _ | .vacant place => some place
  | .directory | .unreachable => none

/-- **Which paths can be opened** for writing. -/
theorem place?_eq_some_iff {path : Bytes} {place : Place} :
    t.place? path = some place ↔ t.LeadsTo path place := by
  unfold place? LeadsTo
  cases t.locate path <;> simp

theorem write?_eq_map_place? (path contents : Bytes) :
    t.write? path contents = (t.place? path).map (t.write · contents) := by
  unfold write? place?
  cases t.locate path <;> rfl

/-- **What can be read to its end** under a path is the file to which it
leads. -/
theorem read?_eq_some_iff {path text : Bytes} :
    t.read? path = some ⟨text, false⟩
      ↔ ∃ place, t.LeadsTo path place ∧ t.get? place = some (.file text) := by
  constructor
  · intro h
    unfold read? at h
    cases htarget : t.locate path with
    | file place contents =>
        rw [htarget] at h
        cases h
        have hleads : t.LeadsTo path place := .inl ⟨text, htarget⟩
        refine ⟨place, hleads, ?_⟩
        have htext := hleads.locate_eq.symm.trans htarget
        unfold targetAt at htext
        split at htext
        · next hget => cases htext; exact hget
        · cases htext
        · cases htext
    | directory | vacant | unreachable => rw [htarget] at h; cases h
  · rintro ⟨place, hleads, hget⟩
    unfold read?
    rw [hleads.locate_eq]
    unfold targetAt
    rw [hget]

/-- **What was written is read** under the same path. -/
theorem LeadsTo.read?_write {path : Bytes} {place : Place} (h : t.LeadsTo path place)
    (contents : Bytes) : (t.write place contents).read? path = some ⟨contents, false⟩ :=
  read?_eq_some_iff.2 ⟨place, h.write h.get?_ne contents, t.get?_write_self h.get?_ne contents⟩

end FileTree

end PresenceTable
