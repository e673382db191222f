/-
**Decoding of nested containers is decoding of their leaves.**

A checker may be a chain of arrays and dictionaries with a reference at its end.  A raw value fits
it if every level of containers is absent or a container of the right sort; what stands in the
innermost containers are the *leaves*, which may be anything.  To decode such a value is to decode
its leaves, one after the other in the order in which they stand there, and to put what comes out
into containers of the same build: an absent container becomes an empty one, arrays keep their
length and their order, and dictionaries their keys.

Main definitions:

* `Checker.base`, `Checker.Nested` — the end of a chain, and the raw values that fit it;
* `Checker.leaves`, `Checker.refill` — **the leaves of a raw value, and the containers around
  them**;
* `Checker.Mapped` — a raw value in which each leaf was replaced.

Main results:

* `Checker.mapped_refill` — what is put into the containers replaces the leaves;
* `Checker.Nested.shaped` — what fits a chain over an eager reference has the expected shape;
* `Checker.decodeWith_nested` — **decoding at once is decoding of the leaves.**
-/

import EntitySchema.Proofs.Agreement

set_option autoImplicit false

namespace EntitySchema

/-! ### Pieces of a list -/

section

variable {α β γ : Type}

/-- A list dealt out in pieces, one for each member of another list, and something made of each
member and its piece. -/
def deal (size : α → Nat) (fill : α → List β → γ) : List α → List β → List γ
  | [], _ => []
  | x :: xs, ys => fill x (ys.take (size x)) :: deal size fill xs (ys.drop (size x))

/-- The first piece is as long as it is to be. -/
theorem deal_cons_append (size : α → Nat) (fill : α → List β → γ) {x : α} (xs : List α)
    {ys : List β} (hys : ys.length = size x) (zs : List β) :
    deal size fill (x :: xs) (ys ++ zs) = fill x ys :: deal size fill xs zs := by
  rw [deal, ← hys, List.take_left, List.drop_left]

/-- What is made of the pieces, each beside something of its member. -/
theorem zip_deal {δ : Type} {size : α → Nat} {fill : α → List β → γ} (k : α → δ) (xs : List α)
    (ys : List β) :
    (xs.map k).zip (deal size fill xs ys) = deal size (fun x zs => (k x, fill x zs)) xs ys := by
  induction xs generalizing ys with
  | nil => rfl
  | cons x xs ih => rw [deal, deal, List.map_cons, List.zip_cons_cons, ih]

/-- Where the members of all pieces are related, each piece is to its member as is said. -/
theorem forall₂_deal {δ : Type} {P : β → δ → Prop} {Q : α → γ → Prop} {f : α → List δ}
    {fill : α → List β → γ} {xs : List α}
    (hfill : ∀ x ∈ xs, ∀ ys, List.Forall₂ (fun z y => P y z) (f x) ys → Q x (fill x ys))
    {ys : List β} (hys : List.Forall₂ (fun z y => P y z) (xs.flatMap f) ys) :
    List.Forall₂ Q xs (deal (fun x => (f x).length) fill xs ys) := by
  induction xs generalizing ys with
  | nil => exact .nil
  | cons x xs ih =>
    obtain ⟨first, rest⟩ := List.forall_mem_cons.1 hfill
    rw [List.flatMap_cons] at hys
    have here := List.forall₂_take (f x).length hys
    have there := List.forall₂_drop (f x).length hys
    rw [List.take_left] at here
    rw [List.drop_left] at there
    exact .cons (first _ here) (ih rest there)

end

namespace Checker

/-! ### Nested containers -/

/-- The checker at the end of a chain of containers. -/
def base : Checker → Checker
  | .arrayOf c _ => base c
  | .dictOf c _ => base c
  | c => c

/-- A raw value that fits a chain of containers: each level is absent, or an array where an array is
to be and a mapping where a dictionary is to be. -/
def Nested : Checker → Value → Prop
  | .arrayOf c _, raw => raw = .null ∨ ∃ xs, raw.elements? = some xs ∧ ∀ x ∈ xs, Nested c x
  | .dictOf c _, raw => raw = .null ∨ ∃ es, raw.entries? = some es ∧ ∀ e ∈ es, Nested c e.2
  | _, _ => True

/-- The leaves of a raw value: what stands in its innermost containers, in order. -/
def leaves : Checker → Value → List Value
  | .arrayOf c _, raw => (raw.elements?.getD []).flatMap (leaves c)
  | .dictOf c _, raw => (raw.entries?.getD []).flatMap fun e => leaves c e.2
  | _, raw => [raw]

/-- The containers of a raw value, with other values in place of the leaves. -/
def refill : Checker → Value → List Value → Value
  | .arrayOf c _, raw, ys =>
    .list (deal (fun x => (leaves c x).length) (refill c) (raw.elements?.getD []) ys)
  | .dictOf c _, raw, ys =>
    .dict (deal (fun e => (leaves c e.2).length) (fun e ys => (e.1, refill c e.2 ys))
      (raw.entries?.getD []) ys)
  | _, raw, ys => ys.headD raw

/-- A value is a raw value with each leaf replaced by one that is related to it: of an absent
container it has an empty one, an array has as many elements in the same order, and a dictionary has
the same keys in the same order. -/
def Mapped (P : Value → Value → Prop) : Checker → Value → Value → Prop
  | .arrayOf c _, raw, v => raw = .null ∧ v = .list [] ∨
      ∃ xs ys, raw.elements? = some xs ∧ v = .list ys ∧ List.Forall₂ (Mapped P c) xs ys
  | .dictOf c _, raw, v => raw = .null ∧ v = .dict [] ∨
      ∃ es fs, raw.entries? = some es ∧ v = .dict fs ∧
        List.Forall₂ (fun e f => e.1 = f.1 ∧ Mapped P c e.2 f.2) es fs
  | _, raw, v => P raw v

variable {g : Catalog} {c : Checker} {r : Bool} {t : Target} {e : Value} {raw : Value}

/-- What an array that fits is decoded from. -/
theorem Nested.items (h : Nested (.arrayOf c r) raw) :
    itemsOf raw = .ok (raw.elements?.getD []) ∧ ∀ x ∈ raw.elements?.getD [], Nested c x := by
  rcases h with rfl | ⟨xs, hxs, each⟩
  · exact ⟨rfl, List.forall_mem_nil _⟩
  · rw [Value.itemsOf_of_elements? hxs, hxs]
    exact ⟨rfl, each⟩

/-- What a dictionary that fits is decoded from. -/
theorem Nested.entries (h : Nested (.dictOf c r) raw) :
    (∀ heap, entriesOf heap raw = .ok (raw.entries?.getD [])) ∧
      ∀ e ∈ raw.entries?.getD [], Nested c e.2 := by
  rcases h with rfl | ⟨es, hes, each⟩
  · exact ⟨fun _ => rfl, List.forall_mem_nil _⟩
  · rw [hes]
    exact ⟨fun heap => (Value.entriesOf_of_entries? hes heap).2, each⟩

/-- **What is put into the containers replaces the leaves.** -/
theorem mapped_refill {P : Value → Value → Prop} : (c : Checker) → c.base = .reference t e r →
    (raw : Value) → Nested c raw → ∀ ys, List.Forall₂ P (leaves c raw) ys →
      Mapped P c raw (refill c raw ys)
  | .reference _ _ _, _, raw, _, ys, hys => by
    cases hys with
    | cons hy rest =>
      cases rest
      exact hy
  | .arrayOf c r, hc, raw, nested, ys, hys => by
    rcases nested with rfl | ⟨xs, hxs, each⟩
    · exact .inl ⟨rfl, rfl⟩
    · rw [leaves, hxs] at hys
      rw [refill, hxs]
      refine .inr ⟨xs, _, hxs, rfl, ?_⟩
      exact forall₂_deal (fun x hx zs hzs => mapped_refill c hc x (each x hx) zs hzs) hys
  | .dictOf c r, hc, raw, nested, ys, hys => by
    rcases nested with rfl | ⟨es, hes, each⟩
    · exact .inl ⟨rfl, rfl⟩
    · rw [leaves, hes] at hys
      rw [refill, hes]
      refine .inr ⟨es, _, hes, rfl, ?_⟩
      exact forall₂_deal
        (fun p hp zs hzs => ⟨rfl, mapped_refill c hc p.2 (each p hp) zs hzs⟩) hys

/-- A raw value that fits a chain of containers over an eager reference has the expected shape. -/
theorem Nested.shaped (he : e.truthy = true) : (c : Checker) → c.base = .reference t e r →
    (raw : Value) → Nested c raw → g.Shaped (.decoded c) raw
  | .reference u e' r', hc, raw, _ => by
    cases hc
    exact .eager r he raw
  | .arrayOf c r, hc, raw, nested => by
    rcases nested with rfl | ⟨xs, hxs, each⟩
    · exact .nothing _
    · exact .array hxs fun x hx => Nested.shaped he c hc x (each x hx)
  | .dictOf c r, hc, raw, nested => by
    rcases nested with rfl | ⟨es, hes, each⟩
    · exact .nothing _
    · exact .dictionary hes fun p hp => Nested.shaped he c hc p.2 (each p hp)

/-! ### Decoding at once -/

variable {make : ClassId → Value → Build Value}

/-- There are as many results as members. -/
theorem length_of_mapM {α β : Type} {f : α → Build β} {xs : List α} {h h' : Heap} {ys : List β}
    (hm : (xs.mapM f) h = .ok (ys, h')) : ys.length = xs.length := by
  induction xs generalizing h ys with
  | nil =>
    cases hm
    rfl
  | cons x xs ih =>
    rw [Build.mapM_cons_apply] at hm
    obtain ⟨p, -, hm⟩ := bind_eq_ok.1 hm
    obtain ⟨q, hq, hm⟩ := bind_eq_ok.1 hm
    cases hm
    exact congrArg (· + 1) (ih hq)

/-- What is made of the members of all pieces is made of each piece in turn. -/
theorem mapM_deal {α γ : Type} {f : α → List Value} {b : Value → Build Value} {d : α → Build γ}
    {fill : α → List Value → γ} {xs : List α}
    (hd : ∀ x ∈ xs, d x = (do pure (fill x (← (f x).mapM b)))) :
    (xs.mapM d : Build (List γ)) =
      (do pure (deal (fun x => (f x).length) fill xs (← (xs.flatMap f).mapM b))) := by
  induction xs with
  | nil => rfl
  | cons x xs ih =>
    obtain ⟨first, rest⟩ := List.forall_mem_cons.1 hd
    funext h
    rw [Build.mapM_cons_apply, first, ih rest, List.flatMap_cons, List.mapM_append]
    simp only [Build.bind_apply]
    cases hys : ((f x).mapM b : Build (List Value)) h with
    | error e => rfl
    | ok p =>
      rw [ok_bind, Build.pure_apply, ok_bind, ok_bind]
      cases hzs : ((xs.flatMap f).mapM b : Build (List Value)) p.2 with
      | error e => rfl
      | ok q =>
        simp only [ok_bind, Build.pure_apply]
        rw [deal_cons_append (fun x => (f x).length) fill xs (length_of_mapM hys) q.1]

/-- **Decoding at once is decoding of the leaves**, one after the other, and putting what comes out
into containers of the same build. -/
theorem decodeWith_nested : (c : Checker) → c.base = .reference t e r → (raw : Value) →
    Nested c raw → decodeWith g make c raw =
      (do pure (refill c raw (← (leaves c raw).mapM (decodeWith g make (.reference t e r)))))
  | .reference _ _ _, hc, raw, _ => by
    cases hc
    funext h
    rw [leaves.eq_def]
    dsimp only
    rw [Build.bind_apply, Build.mapM_cons_apply]
    cases decodeWith g make (.reference t e r) raw h <;> rfl
  | .arrayOf c r, hc, raw, nested => by
    obtain ⟨hitems, each⟩ := nested.items
    have items := mapM_deal fun x hx => decodeWith_nested c hc x (each x hx)
    funext h
    rw [decodeWith, hitems, Build.lift_bind_apply, ok_bind, items, bind_assoc]
    rfl
  | .dictOf c r, hc, raw, nested => by
    obtain ⟨hentries, each⟩ := nested.entries
    have entries : ((raw.entries?.getD []).mapM fun p => do pure (p.1, ← decodeWith g make c p.2) :
        Build Entries) = (do
          let ys ← ((raw.entries?.getD []).flatMap fun p => leaves c p.2).mapM
            (decodeWith g make (.reference t e _))
          pure (deal (fun p => (leaves c p.2).length) (fun p ys => (p.1, refill c p.2 ys))
            (raw.entries?.getD []) ys)) :=
      mapM_deal fun p hp => by
        rw [decodeWith_nested c hc p.2 (each p hp), bind_assoc]
        rfl
    funext h
    rw [decodeWith, Build.get_bind_apply, hentries, Build.lift_bind_apply, ok_bind, entries,
      bind_assoc]
    rfl

end Checker

end EntitySchema
