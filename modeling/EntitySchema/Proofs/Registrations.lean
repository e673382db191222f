/-
**The registry is the last live registration.**

A class is given the name of its kind when it is defined, and other names when it is registered
again; names are given up.  A definition that is refused gives no name.  So what happens to the
names is a list of *events*, and the registry follows from it: a name stands for the class that it
was given to last, unless it was given up since.  Such a name is *live*, and it stands in the place
that it got when it became live: to be given to another class does not move it, to be given up and
given again does.

Main definitions:

* `Naming` — an event: a name is given to a class, or given up;
* `Naming.Holds`, `Naming.Live`, `Naming.LiveSince` — **what a name stands for after some events**,
  and which of them made it live;
* `Registration`, `Registration.perform` — definitions, registrations and their withdrawal;
* `Registration.event?` — the event that a step is.

Main results:

* `Naming.mirrors_applyAll` — a table of names follows the events;
* `Registration.names_run` — the registry after a run is the table that the events make;
* `Registration.run_registry` — **what the registry answers after any run.**
-/

import EntitySchema.Catalog
import Mathlib.Data.List.Induction

set_option autoImplicit false

namespace EntitySchema

/-! ### Names of a table -/

namespace Table

variable {α : Type}

theorem names_cons (e : String × α) (t : Table α) : names (e :: t) = e.1 :: names t := rfl

theorem isSome_get?_iff {t : Table α} {name : String} :
    (get? t name).isSome = true ↔ name ∈ names t := by
  induction t with
  | nil => simp [names]
  | cons e t ih =>
    obtain ⟨k, v⟩ := e
    rw [names_cons, List.mem_cons, get?]
    by_cases hk : k = name
    · simp [hk]
    · rw [if_neg hk, ih]
      simp [Ne.symm hk]

/-- A name that is there keeps its place, and a new one comes last. -/
theorem names_put (t : Table α) (name : String) (x : α) :
    names (put t name x) = if name ∈ names t then names t else names t ++ [name] := by
  induction t with
  | nil => rfl
  | cons e t ih =>
    obtain ⟨k, v⟩ := e
    by_cases hk : k = name
    · simp [put, names_cons, hk]
    · rw [put, if_neg hk, names_cons, names_cons, ih]
      by_cases there : name ∈ names t
      · rw [if_pos there, if_pos (List.mem_cons_of_mem _ there)]
      · have absent : name ∉ k :: names t := by
          rw [List.mem_cons, not_or]
          exact ⟨Ne.symm hk, there⟩
        rw [if_neg there, if_neg absent]
        rfl

theorem names_erase (t : Table α) (name : String) :
    names (erase t name) = (names t).filter (· != name) := by
  rw [names, names, erase, List.filter_map]
  rfl

end Table

/-! ### Events -/

/-- What happens to a name: it is given to a class, or given up. -/
inductive Naming where
  | given (name : String) (c : ClassId)
  | dropped (name : String)
  deriving DecidableEq

namespace Naming

/-- The name that an event is about. -/
def name : Naming → String
  | .given name _ | .dropped name => name

/-- The table of names after an event. -/
def apply (t : Table ClassId) : Naming → Table ClassId
  | .given name c => Table.put t name c
  | .dropped name => Table.erase t name

/-- A name stands for the class that it was given to last, if nothing has happened to it since. -/
def Holds (es : List Naming) (name : String) (c : ClassId) : Prop :=
  ∃ before after, es = before ++ .given name c :: after ∧ ∀ e ∈ after, e.name ≠ name

/-- A name stands for a class. -/
def Live (es : List Naming) (name : String) : Prop := ∃ c, Holds es name c

/-- The event at position `i` made a name live: the name was given then, was not live before, and
has not been given up since. -/
def LiveSince (es : List Naming) (name : String) (i : Nat) : Prop :=
  (∃ c, es[i]? = some (.given name c)) ∧ ¬ Live (es.take i) name ∧ .dropped name ∉ es.drop i

/-- One name became live before another. -/
def Earlier (es : List Naming) (a b : String) : Prop :=
  ∃ i j, LiveSince es a i ∧ LiveSince es b j ∧ i < j

variable {es : List Naming} {e : Naming} {n : String} {c : ClassId}

theorem not_holds_nil : ¬ Holds [] n c := by
  rintro ⟨before, after, heq, -⟩
  simp at heq

/-- What a name stands for is told by the last event if that is about it, and by those before
otherwise. -/
theorem holds_concat : Holds (es ++ [e]) n c ↔ e = .given n c ∨ e.name ≠ n ∧ Holds es n c := by
  constructor
  · rintro ⟨before, after, heq, others⟩
    rcases List.eq_nil_or_concat after with rfl | ⟨after, last, rfl⟩
    · exact .inl (List.append_singleton_inj.1 heq).2
    · rw [List.concat_eq_append, ← List.cons_append, ← List.append_assoc] at heq
      obtain ⟨hes, rfl⟩ := List.append_singleton_inj.1 heq
      refine .inr ⟨others e (by simp), before, after, hes, fun d hd => others d ?_⟩
      rw [List.concat_eq_append]
      exact List.mem_append_left _ hd
  · rintro (rfl | ⟨other, before, after, rfl, others⟩)
    · exact ⟨es, [], rfl, List.forall_mem_nil _⟩
    · refine ⟨before, after ++ [e], by simp, fun d hd => ?_⟩
      rcases List.mem_append.1 hd with hd | hd
      · exact others d hd
      · rw [List.mem_singleton.1 hd]
        exact other

/-- What made a name live did so also if something else happens afterwards. -/
theorem LiveSince.concat {i : Nat} (since : LiveSince es n i) (kept : e ≠ .dropped n) :
    LiveSince (es ++ [e]) n i := by
  obtain ⟨⟨c, hc⟩, notBefore, notDropped⟩ := since
  have lt : i < es.length := (List.getElem?_eq_some_iff.1 hc).1
  refine ⟨⟨c, by rw [List.getElem?_append_left lt, hc]⟩, ?_, ?_⟩
  · rwa [List.take_append_of_le_length (Nat.le_of_lt lt)]
  · rw [List.drop_append_of_le_length (Nat.le_of_lt lt), List.mem_append,
      List.mem_singleton, not_or]
    exact ⟨notDropped, Ne.symm kept⟩

theorem LiveSince.lt {i : Nat} (since : LiveSince es n i) : i < es.length :=
  have ⟨⟨_, hc⟩, _⟩ := since
  (List.getElem?_eq_some_iff.1 hc).1

/-- A name that is given without being live is live since then. -/
theorem liveSince_concat_self (fresh : ¬ Live es n) (c : ClassId) :
    LiveSince (es ++ [.given n c]) n es.length := by
  refine ⟨⟨c, by simp⟩, ?_, ?_⟩
  · rwa [List.take_left]
  · rw [List.drop_left]
    simp

theorem Earlier.concat {a b : String} (h : Earlier es a b) (keptA : e ≠ .dropped a)
    (keptB : e ≠ .dropped b) : Earlier (es ++ [e]) a b := by
  obtain ⟨i, j, sinceA, sinceB, lt⟩ := h
  exact ⟨i, j, sinceA.concat keptA, sinceB.concat keptB, lt⟩

/-! ### A table follows its events -/

/-- A table holds what the names stand for after some events, each live name once, in the order in
which they became live. -/
structure Mirrors (t : Table ClassId) (es : List Naming) : Prop where
  get?_iff : ∀ n c, Table.get? t n = some c ↔ Holds es n c
  since : ∀ n ∈ Table.names t, ∃ i, LiveSince es n i
  nodup : (Table.names t).Nodup
  ordered : (Table.names t).Pairwise (Earlier es)

namespace Mirrors

variable {t : Table ClassId}

/-- The names of the table are the live ones. -/
theorem mem_names_iff (m : Mirrors t es) : n ∈ Table.names t ↔ Live es n := by
  rw [← Table.isSome_get?_iff, Option.isSome_iff_exists]
  exact exists_congr fun c => m.get?_iff n c

/-- **A name that is given** keeps its place if it is live, and comes last otherwise. -/
theorem given (m : Mirrors t es) (n : String) (c : ClassId) :
    Mirrors (Table.put t n c) (es ++ [.given n c]) where
  get?_iff k d := by
    rw [holds_concat]
    by_cases hk : k = n
    · subst hk
      simp [name]
    · simp [Table.get?_put_of_ne t hk, m.get?_iff, name, Ne.symm hk]
  since k hk := by
    rcases (Table.mem_names_put t n k c).1 hk with rfl | hk
    · by_cases live : k ∈ Table.names t
      · obtain ⟨i, hi⟩ := m.since k live
        exact ⟨i, hi.concat (by simp)⟩
      · exact ⟨es.length, liveSince_concat_self (fun l => live (m.mem_names_iff.2 l)) c⟩
    · obtain ⟨i, hi⟩ := m.since k hk
      exact ⟨i, hi.concat (by simp)⟩
  nodup := by
    rw [Table.names_put]
    split
    · exact m.nodup
    · next fresh =>
      refine List.nodup_append.2 ⟨m.nodup, List.pairwise_singleton _ n, ?_⟩
      rintro a ha b hb rfl
      exact fresh (List.mem_singleton.1 hb ▸ ha)
  ordered := by
    have kept : (Table.names t).Pairwise (Earlier (es ++ [.given n c])) :=
      m.ordered.imp fun h => h.concat (by simp) (by simp)
    rw [Table.names_put]
    split
    · exact kept
    · next fresh =>
      refine List.pairwise_append.2 ⟨kept, List.pairwise_singleton _ _, ?_⟩
      intro a ha b hb
      rw [List.mem_singleton.1 hb]
      obtain ⟨i, hi⟩ := m.since a ha
      exact ⟨i, es.length, hi.concat (by simp),
        liveSince_concat_self (fun l => fresh (m.mem_names_iff.2 l)) c, hi.lt⟩

/-- **A name that is given up** is gone, and the others stay as they are. -/
theorem dropped (m : Mirrors t es) (n : String) :
    Mirrors (Table.erase t n) (es ++ [.dropped n]) where
  get?_iff k d := by
    rw [holds_concat]
    by_cases hk : k = n
    · subst hk
      simp [name]
    · simp [Table.get?_erase_of_ne t hk, m.get?_iff, name, Ne.symm hk]
  since k hk := by
    rw [Table.names_erase, List.mem_filter] at hk
    obtain ⟨i, hi⟩ := m.since k hk.1
    exact ⟨i, hi.concat fun heq => by simp [Naming.dropped.inj heq] at hk⟩
  nodup := by
    rw [Table.names_erase]
    exact m.nodup.filter _
  ordered := by
    rw [Table.names_erase]
    refine (m.ordered.filter _).imp_of_mem ?_
    intro a b ha hb h
    have other : ∀ k ∈ (Table.names t).filter (· != n), Naming.dropped n ≠ .dropped k := by
      intro k hk heq
      simp [Naming.dropped.inj heq] at hk
    exact h.concat (other a ha) (other b hb)

end Mirrors

/-- **The table that events make mirrors them.** -/
theorem mirrors_applyAll (es : List Naming) : Mirrors (es.foldl apply []) es := by
  induction es using List.reverseRecOn with
  | nil => exact ⟨fun n c => iff_of_false nofun not_holds_nil, nofun, .nil, .nil⟩
  | append_singleton es e ih =>
    rw [List.foldl_append, List.foldl_cons, List.foldl_nil]
    cases e with
    | given n c => exact ih.given n c
    | dropped n => exact ih.dropped n

end Naming

/-! ### Steps -/

/-- A name that may be missing or empty; another one is taken then. -/
def nameOr (name? : Option String) (other : String) : String :=
  if name?.getD "" = "" then other else name?.getD ""

/-- What can be done with classes and their names: a class is defined, with or without a kind and a
schema; a class is registered, under a name or under its own; a name is given up. -/
inductive Registration where
  | define (name : String) (kind? : Option String) (parent : ClassId) (schema? : Option Schema)
      (lookup? : Option Lookup)
  | register (c : ClassId) (name? : Option String)
  | unregister (name : String)

namespace Registration

/-- What a step answers. -/
inductive Answer where
  | defined (c : ClassId)
  | failed (e : Failure)
  | registered
  | unregistered (found : Bool)

/-- A step: its answer, and the catalog after it. -/
def perform (g : Catalog) : Registration → Answer × Catalog
  | .define name kind? parent schema? lookup? =>
    match g.define name (kind?.getD "") parent schema? lookup? with
    | .ok (c, g') => (.defined c, g')
    | .error e => (.failed e, g)
  | .register c name? => (.registered, g.register c (name?.getD ""))
  | .unregister name => (.unregistered (g.unregister name).1, (g.unregister name).2)

/-- The catalog after steps that are made one after the other. -/
def run (g : Catalog) (rs : List Registration) : Catalog := rs.foldl (fun g r => (perform g r).2) g

/-- A definition is refused if a text cannot be the name of a class, or if a field of the schema,
its own or the one of its base, has a reserved name. -/
def Refused (g : Catalog) (name : String) (parent : ClassId) (schema? : Option Schema) : Prop :=
  Catalog.isClassName name = false ∨
    ∃ f ∈ Table.names (schema?.getD (g.schemaOf parent)), f ∈ reservedNames

instance (g : Catalog) (name : String) (parent : ClassId) (schema? : Option Schema) :
    Decidable (Refused g name parent schema?) := by
  unfold Refused
  infer_instance

/-- The event that a step is: a class that is defined is given the name of its kind, or its own. -/
def event? (g : Catalog) : Registration → Option Naming
  | .define name kind? parent schema? _ =>
    if Refused g name parent schema? then none
    else some (.given (nameOr kind? name) g.classes.length)
  | .register c name? => some (.given (nameOr name? (g.nameOf c)) c)
  | .unregister name => some (.dropped name)

/-- The events of steps that are made one after the other. -/
def history (g : Catalog) : List Registration → List Naming
  | [] => []
  | r :: rs => (event? g r).toList ++ history (perform g r).2 rs

variable {g : Catalog}

/-- A definition that is refused fails, and any other succeeds. -/
theorem exists_define_iff (name kind : String) (parent : ClassId) (schema? : Option Schema)
    (lookup? : Option Lookup) : (∃ p, g.define name kind parent schema? lookup? = .ok p) ↔
      ¬ Refused g name parent schema? := by
  rw [Catalog.define_ok_iff, Refused]
  simp only [not_or, not_exists, not_and, Bool.not_eq_false]

/-- A definition adds a class with its name and kind, and gives it the name of the kind. -/
theorem define_eq_ok {name : String} {kind? : Option String} {parent : ClassId}
    {schema? : Option Schema} {lookup? : Option Lookup} {c : ClassId} {g' : Catalog}
    (h : g.define name (kind?.getD "") parent schema? lookup? = .ok (c, g')) :
    c = g.classes.length ∧ g'.names = Table.put g.names (nameOr kind? name) c ∧
      g'.nameOf c = name ∧ g'.kindOf c = nameOr kind? name := by
  simp only [Catalog.define] at h
  split at h
  · cases h
  split at h
  · cases h
    refine ⟨rfl, ?_, ?_, ?_⟩
    · simp only [Catalog.register, Catalog.nameOf, List.getElem?_concat_length, Option.map_some,
        Option.getD_some, nameOr]
      by_cases hk : kind?.getD "" = ""
      · rw [if_pos hk]
        split <;> rfl
      · rw [if_neg hk, if_neg hk]
    · simp [Catalog.register, Catalog.nameOf]
    · simp [Catalog.register, Catalog.kindOf, nameOr]
  · cases h

/-- **A step changes the names by its event**, if it is one, and not otherwise. -/
theorem names_perform (r : Registration) :
    (perform g r).2.names = (event? g r).toList.foldl Naming.apply g.names := by
  cases r with
  | define name kind? parent schema? lookup? =>
    have ok := exists_define_iff (g := g) name (kind?.getD "") parent schema? lookup?
    rw [perform, event?]
    cases hd : g.define name (kind?.getD "") parent schema? lookup? with
    | error e =>
      have refused : Refused g name parent schema? := by
        by_contra allowed
        obtain ⟨p, hp⟩ := ok.2 allowed
        cases hd.symm.trans hp
      rw [if_pos refused]
      rfl
    | ok p =>
      obtain ⟨hc, names, -⟩ := define_eq_ok (hd : _ = Except.ok (p.1, p.2))
      rw [if_neg (ok.1 ⟨p, hd⟩), ← hc]
      exact names
  | register c name? =>
    rw [perform, event?, nameOr]
    rfl
  | unregister name => rfl

/-- **The registry after a run is the table that the events make.** -/
theorem names_run (rs : List Registration) (g : Catalog) :
    (run g rs).names = (history g rs).foldl Naming.apply g.names := by
  induction rs generalizing g with
  | nil => rfl
  | cons r rs ih =>
    rw [history, List.foldl_append, ← names_perform]
    exact ih (perform g r).2

/-- **The registry is the last live registration.**  After any definitions, registrations and
withdrawals from an empty registry: a name is found, and resolved, just for the class that it was
given to last by a definition or a registration and not given up since, and the failure of
resolving any other tells that no class is registered under it; the names are those that are live,
each once, in the order in which they became live; to give up a name tells whether it was live; and
a definition fails just if it is refused, and leaves everything as it is then. -/
theorem run_registry (rs : List Registration) :
    let g := run .initial rs
    let es := history .initial rs
    (∀ name c, g.lookupName? name = some c ↔ Naming.Holds es name c) ∧
    (∀ name c, g.resolve (.named name) = .ok c ↔ Naming.Holds es name c) ∧
    (∀ name, ¬ Naming.Live es name →
      g.lookupName? name = none ∧ g.resolve (.named name) = .error (.unknownEntity name)) ∧
    (∀ name, name ∈ Table.names g.names ↔ Naming.Live es name) ∧
    (Table.names g.names).Nodup ∧
    (∀ name ∈ Table.names g.names, ∃ i, Naming.LiveSince es name i) ∧
    (Table.names g.names).Pairwise (Naming.Earlier es) ∧
    (∀ name, ∃ found, (perform g (.unregister name)).1 = .unregistered found ∧
      (found = true ↔ Naming.Live es name)) ∧
    ∀ name kind? parent schema? lookup?,
      (Refused g name parent schema? → ∃ e,
        perform g (.define name kind? parent schema? lookup?) = (.failed e, g)) ∧
      (¬ Refused g name parent schema? → ∃ g',
        perform g (.define name kind? parent schema? lookup?) = (.defined g.classes.length, g') ∧
          g'.nameOf g.classes.length = name ∧
          g'.kindOf g.classes.length = nameOr kind? name) := by
  intro g es
  have mirrors : Naming.Mirrors g.names es := by
    have names : g.names = es.foldl Naming.apply [] := names_run rs .initial
    rw [names]
    exact Naming.mirrors_applyAll es
  have absent : ∀ name, ¬ Naming.Live es name → g.lookupName? name = none := by
    intro name dead
    rw [Option.eq_none_iff_forall_not_mem]
    exact fun c hc => dead ⟨c, (mirrors.get?_iff name c).1 hc⟩
  refine ⟨mirrors.get?_iff, fun name c => ?_, fun name dead => ⟨absent name dead, ?_⟩,
    fun name => mirrors.mem_names_iff, mirrors.nodup, mirrors.since, mirrors.ordered,
    fun name => ⟨_, rfl, ?_⟩, fun name kind? parent schema? lookup? => ⟨?_, ?_⟩⟩
  · rw [← mirrors.get?_iff, Catalog.resolve]
    show _ ↔ g.lookupName? name = some c
    cases g.lookupName? name <;> simp
  · rw [Catalog.resolve, absent name dead]
  · exact Table.isSome_get?_iff.trans mirrors.mem_names_iff
  · intro refused
    rw [perform]
    cases hd : g.define name (kind?.getD "") parent schema? lookup? with
    | error e => exact ⟨e, rfl⟩
    | ok p => exact absurd refused ((exists_define_iff _ _ _ _ _).1 ⟨p, hd⟩)
  · intro allowed
    obtain ⟨⟨c, g'⟩, hd⟩ :=
      (exists_define_iff name (kind?.getD "") parent schema? lookup?).2 allowed
    obtain ⟨rfl, -, named⟩ := define_eq_ok hd
    exact ⟨g', by rw [perform, hd], named⟩

/-- To be given again keeps the place of a name, and to be given up in between moves it. -/
example : Table.names (run .initial
    [.define "A" none 0 none none, .define "B" (some "") 0 none none, .register 2 (some "A"),
      .register 1 none, .unregister "A", .define "C" none 0 (some [("id", .date false)]) none,
      .register 2 (some "A")]).names = ["B", "A"] := by
  decide

end Registration

end EntitySchema
