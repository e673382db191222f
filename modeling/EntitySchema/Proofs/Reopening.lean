/-
**Opening a file again.**

Connecting to a path makes what is not there, and nothing else: what stood in the tree of files
stands there afterwards, and all tables are what they were.  So a path that has led to a file leads
to it again, whatever has been written since.

Main definitions:

* `Disk.Stands`, `Disk.Saves` — trees in which what stood in another stands, and the tables of which
  are the same;
* `Disk.Leads` — steps that lead to a directory.

Main results:

* `Disk.saves_connect` — **connecting changes no table of any file**;
* `Disk.connect_again` — **a path that has led to a file leads to it again.**
-/

import EntitySchema.Proofs.Refinement

set_option autoImplicit false

namespace EntitySchema

namespace Disk

/-! ### Trees that grow -/

/-- What stands in a tree stands in another, be it that a file has been written.  A file that was up
to date is. -/
structure Stands (d d' : Disk) : Prop where
  directory {p : Place} : d.node? p = some .directory → d'.node? p = some .directory
  file {p : Place} {db : Database} : d.node? p = some (.file db) →
    ∃ db', d'.node? p = some (.file db') ∧ (db.Current → db'.Current)

/-- What stands in a tree stands in another, all rows are the same, and every table is there that
was. -/
structure Saves (d d' : Disk) : Prop extends Stands d d' where
  table (p : Place) : d'.table p = d.table p
  made {p : Place} {t : FileTable} : (d.database p).records? = some t →
    (d'.database p).records? = some t

variable {d d' d'' : Disk} {p : Place}

theorem Stands.refl (d : Disk) : Stands d d := ⟨id, fun h => ⟨_, h, id⟩⟩

theorem Stands.trans (h : Stands d d') (h' : Stands d' d'') : Stands d d'' := by
  refine ⟨fun hp => h'.directory (h.directory hp), fun hp => ?_⟩
  obtain ⟨db', hdb', stays⟩ := h.file hp
  obtain ⟨db'', hdb'', stays'⟩ := h'.file hdb'
  exact ⟨db'', hdb'', stays' ∘ stays⟩

theorem Saves.refl (d : Disk) : Saves d d := ⟨.refl d, fun _ => rfl, id⟩

theorem Saves.trans (h : Saves d d') (h' : Saves d' d'') : Saves d d'' :=
  ⟨h.toStands.trans h'.toStands, fun p => (h'.table p).trans (h.table p), fun ht =>
    h'.made (h.made ht)⟩

/-- All tables are the same where all files hold the same. -/
theorem Stands.saves (h : Stands d d') (same : ∀ q, d'.database q = d.database q) : Saves d d' :=
  ⟨h, fun q => by rw [table, same, table], fun ht => by rwa [same]⟩

theorem database_put_of_ne {q : Place} (h : q ≠ p) (n : Node) :
    (d.put p n).database q = d.database q := by
  rw [database, node?_put_of_ne d h, database]

theorem table_put_of_ne {q : Place} (h : q ≠ p) (n : Node) : (d.put p n).table q = d.table q := by
  rw [table, database_put_of_ne h, table]

@[simp] theorem database_put_self (d : Disk) (p : Place) (db : Database) :
    (d.put p (.file db)).database p = db := by
  rw [database, node?_put_self]

/-- A file is written. -/
theorem stands_write {db db' : Database} (h : d.node? p = some (.file db))
    (current : db.Current → db'.Current) : Stands d (d.put p (.file db')) := by
  constructor
  · intro q hq
    have other : q ≠ p := by rintro rfl; cases h.symm.trans hq
    rw [node?_put_of_ne d other, hq]
  · intro q db'' hq
    by_cases same : q = p
    · subst same
      cases h.symm.trans hq
      exact ⟨db', node?_put_self d q _, current⟩
    · exact ⟨db'', (node?_put_of_ne d same _).trans hq, id⟩

/-- Something is made where nothing was. -/
theorem saves_new {n : Node} (h : d.node? p = none) (hn : n = .directory ∨ n = .file .blank) :
    Saves d (d.put p n) := by
  have other {q : Place} {m : Node} (hq : d.node? q = some m) : q ≠ p := by
    rintro rfl
    cases h.symm.trans hq
  have kept {q : Place} {m : Node} (hq : d.node? q = some m) : (d.put p n).node? q = some m := by
    rw [node?_put_of_ne d (other hq), hq]
  refine Stands.saves ⟨kept, fun hq => ⟨_, kept hq, id⟩⟩ fun q => ?_
  by_cases same : q = p
  · subst same
    simp only [database, node?_put_self, h]
    rcases hn with rfl | rfl <;> rfl
  · exact database_put_of_ne same n

/-- A file is written as it is. -/
theorem saves_same {db : Database} (h : d.node? p = some (.file db)) :
    Saves d (d.put p (.file db)) := by
  refine (stands_write h id).saves fun q => ?_
  by_cases same : q = p
  · subst same
    simp only [database, node?_put_self, h]
  · exact database_put_of_ne same _

/-- A file is brought up to date. -/
theorem saves_migrate {link : Link} (h : ∀ q, link = .file q → ∃ db, d.node? q = some (.file db)) :
    Saves d (d.migrate link) := by
  cases link with
  | file p =>
    obtain ⟨db, hdb⟩ := h p rfl
    refine ⟨stands_write hdb fun _ => Database.current_migrate _, fun q => ?_, @fun q t ht => ?_⟩
    · by_cases same : q = p
      · subst same
        rw [migrate, table, database_put_self, Database.rows_migrate, table]
      · exact table_put_of_ne same _
    · by_cases same : q = p
      · subst same
        rw [migrate, database_put_self, Database.records?_migrate, Database.rows_of_records? ht]
      · rwa [migrate, database_put_of_ne same]
  | closed => exact .refl d
  | own t => exact .refl d
  | unusable => exact .refl d

/-! ### Following a path again -/

/-- A place that was reached is reached where all directories stand. -/
theorem walk_of_stands (h : Stands d d') {steps : List String} {base : Place}
    (hw : d.walk base steps = .ok p) : d'.walk base steps = .ok p := by
  induction steps generalizing base with
  | nil => exact hw
  | cons s steps ih =>
    rw [walk] at hw ⊢
    cases hn : d.node? base with
    | none => rw [hn] at hw; cases hw
    | some n =>
      cases n with
      | file db => rw [hn] at hw; cases hw
      | directory =>
        rw [hn] at hw
        rw [h.directory hn]
        dsimp only at hw ⊢
        split at hw
        · next up => rw [if_pos up]; exact ih hw
        · next down =>
          split at hw
          · cases hw
          · next short => rw [if_neg down, if_neg short]; exact ih hw

/-- Steps lead to a directory. -/
def Leads (d : Disk) (base : Place) (steps : List String) : Prop :=
  ∃ p, d.walk base steps = .ok p ∧ d.node? p = some .directory

theorem Leads.of_stands {base : Place} {steps : List String} (hl : d.Leads base steps)
    (h : Stands d d') : d'.Leads base steps := by
  obtain ⟨p, hw, hp⟩ := hl
  exact ⟨p, walk_of_stands h hw, h.directory hp⟩

/-- A directory that is made was not there. -/
theorem make_ok {base : Place} {steps : List String} (h : d.make base steps = .ok d') :
    ∃ p, d.walk base steps = .ok p ∧ d.node? p = none ∧ d' = d.put p .directory := by
  rw [make] at h
  split at h
  · cases h
  · cases hw : d.walk base steps with
    | error b => rw [hw] at h; cases h
    | ok p =>
      rw [hw] at h
      cases hn : d.node? p with
      | some n =>
        have occupied : (Except.error .occupied : Except Blockage Disk) = .ok d' := by
          simpa only [bind, Except.bind, hn] using h
        cases occupied
      | none =>
        have made : (Except.ok (d.put p .directory) : Except Blockage Disk) = .ok d' := by
          simpa only [bind, Except.bind, hn] using h
        cases made
        exact ⟨p, rfl, hn, rfl⟩

theorem saves_make {base : Place} {steps : List String} (h : d.make base steps = .ok d') :
    Saves d d' := by
  obtain ⟨p, -, hp, rfl⟩ := make_ok h
  exact saves_new hp (.inl rfl)

theorem leads_of_make {base : Place} {steps : List String} (h : d.make base steps = .ok d') :
    d'.Leads base steps := by
  obtain ⟨p, hw, hp, rfl⟩ := make_ok h
  exact ⟨p, walk_of_stands (saves_new hp (.inl rfl)).toStands hw, node?_put_self d p _⟩

theorem leads_of_allow {base : Place} {steps : List String} {b : Blockage}
    (h : d.allow base steps b = .ok ()) : d.Leads base steps := by
  rw [allow] at h
  split at h
  · cases h
  · split at h
    · next p hw =>
      split at h
      · next hp => exact ⟨p, hw, hp⟩
      · cases h
    · cases h

/-- A directory that is there is let pass. -/
theorem allow_of_leads {base : Place} {steps : List String} {b : Blockage}
    (h : d.Leads base steps) (hb : b ≠ .missing) : d.allow base steps b = .ok () := by
  obtain ⟨p, hw, hp⟩ := h
  rw [allow, if_neg hb, hw]
  simp only [hp]

/-- A directory that is there is not made. -/
theorem make_of_leads {base : Place} {steps : List String} (h : d.Leads base steps) :
    ∃ b, b ≠ .missing ∧ d.make base steps = .error b := by
  obtain ⟨p, hw, hp⟩ := h
  rw [make]
  split
  · exact ⟨_, by decide, rfl⟩
  · exact ⟨.occupied, by decide, by simp [hw, hp, bind, Except.bind]⟩

theorem saves_ensure (d : Disk) (base : Place) (steps : List String) :
    Saves d (d.ensure base steps).2 := by
  induction steps generalizing d with
  | nil => exact .refl d
  | cons s above ih =>
    rw [ensure]
    split
    · next made => exact saves_make made
    · have first := ih d
      split
      · next d₁ hd₁ =>
        rw [hd₁] at first
        split
        · next made => exact first.trans (saves_make made)
        · exact first
      · exact first
    · exact .refl d

/-- The directories above a file are there once they have been made. -/
theorem leads_of_ensure {base : Place} {s : String} {above : List String}
    (h : d.ensure base (s :: above) = (.ok (), d')) : d'.Leads base (s :: above).reverse := by
  rw [ensure] at h
  split at h
  · next made =>
    cases h
    exact leads_of_make made
  · split at h
    · split at h
      · next made =>
        cases h
        exact leads_of_make made
      · obtain ⟨allowed, rfl⟩ := Prod.mk.inj h
        exact leads_of_allow allowed
    · next other => exact (other d' h).elim
  · obtain ⟨allowed, rfl⟩ := Prod.mk.inj h
    exact leads_of_allow allowed

/-- Directories that are there are not made again. -/
theorem ensure_again {base : Place} {steps : List String}
    (h : d.ensure base steps = (.ok (), d')) (hs : Stands d' d'') :
    d''.ensure base steps = (.ok (), d'') := by
  cases steps with
  | nil => rfl
  | cons s above =>
    have leads := (leads_of_ensure h).of_stands hs
    obtain ⟨b, hb, refused⟩ := make_of_leads leads
    rw [ensure, refused]
    cases b with
    | missing => exact absurd rfl hb
    | _ => exact congrArg (·, d'') (allow_of_leads leads hb)

/-! ### Opening a file again -/

/-- A file that is opened is there, and all tables are what they were. -/
theorem saves_openPlace (d : Disk) (p : Place) : Saves d (d.openPlace p).2 := by
  unfold openPlace
  dsimp only
  split
  · exact .refl d
  · split
    · exact .refl d
    · next hp _ => exact saves_new hp (.inr rfl)
    · exact .refl d

/-- A file that has been opened is opened again. -/
theorem openPlace_again {link : Link} (h : d.openPlace p = (.ok link, d')) (hs : Stands d' d'') :
    d''.openPlace p = (.ok link, d'') := by
  obtain ⟨-, db', hdb'⟩ := exists_database_of_openPlace h
  obtain ⟨db, hdb, -⟩ := hs.file hdb'
  unfold openPlace at h ⊢
  dsimp only at h ⊢
  split at h
  · cases h
  · next long =>
    rw [if_neg long, hdb]
    split at h
    · cases h; rfl
    · cases h; rfl
    · cases h

/-- A file that is connected to is there. -/
theorem file_of_openPlace {q : Place} (h : d.openPlace p = (.ok (.file q), d')) :
    ∃ db, d'.node? q = some (.file db) := by
  obtain ⟨used, db, hdb⟩ := exists_database_of_openPlace h
  rcases used with used | used <;> cases used
  exact ⟨db, hdb⟩

/-- **Connecting changes no table of any file.** -/
theorem saves_connect (d : Disk) (path : String) : Saves d (d.connect path).2 := by
  unfold connect
  split
  · exact .refl d
  · dsimp only
    split
    · exact .refl d
    · have made := saves_ensure d (Path.ofText path).base (Path.ofText path).parent.steps.reverse
      split
      · next hd => rw [hd] at made; exact made
      · next d₁ hd =>
        rw [hd] at made
        split
        · have opened := saves_openPlace d₁ (Path.ofText path).place
          split
          · next link d₂ ho =>
            rw [ho] at opened
            exact made.trans (opened.trans (saves_migrate fun q hq => file_of_openPlace (hq ▸ ho)))
          · next ho => rw [ho] at opened; exact made.trans opened
        · exact made

/-- **A path that has led to a file leads to it again.** -/
theorem connect_again {path : String} {link : Link} (h : d.connect path = (.ok link, d'))
    (hs : Stands d' d'') : (d''.connect path).1 = .ok link := by
  unfold connect at h ⊢
  split at h
  · next own =>
    cases h
    rw [if_pos own]
  · next named =>
    rw [if_neg named]
    dsimp only at h ⊢
    split at h
    · cases h
    · next clean =>
      rw [if_neg clean]
      split at h
      · cases h
      · next d₁ made =>
        split at h
        · next clean' =>
          split at h
          · next link₂ d₂ opened =>
            cases h
            have opening : Stands d₁ d₂ := by
              have := saves_openPlace d₁ (Path.ofText path).place
              rw [opened] at this
              exact this.toStands
            have later : Stands d₂ d'' :=
              (saves_migrate fun q hq => file_of_openPlace (hq ▸ opened)).toStands.trans hs
            rw [ensure_again made (opening.trans later)]
            simp only [clean', if_true, openPlace_again opened later]
          · cases h
        · cases h

end Disk

end EntitySchema
