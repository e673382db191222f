/-
**Construction and raw data are a normalising round trip.**

An entity that is constructed from plain data tells the normal form of these data as its raw data.
An entity constructed from that in turn tells just the same, and equals the first.

Main results:

* `Method.equal_eq_of_toRaw` — entities of one class are compared by their raw data;
* `Method.equal_of_toRaw` — entities of one class whose raw data are the same data are equal;
* `Construction.round_trip` — **raw data are brought to their normal form by one construction, and
  another changes nothing.**
-/

import EntitySchema.Proofs.Showing

set_option autoImplicit false

namespace EntitySchema

/-- Entities of one class are compared by their raw data. -/
theorem Method.equal_eq_of_toRaw {g : Catalog} {h : Heap} {a b : Address} {cls : ClassId}
    {x y : Value} (ha : (Heap.get h a).species = .entity cls)
    (hb : (Heap.get h b).species = .entity cls) (hra : toRaw g h a = .ok x)
    (hrb : toRaw g h b = .ok y) {same : Except Failure Bool}
    (hxy : ∀ ask, Value.sameWith ask x y = same) :
    equal g h (.object a) (.object b) = same := by
  have entity : Heap.isEntity h a = true := by simp [Heap.isEntity, ha]
  obtain ⟨n, hn⟩ : ∃ n, depth h = n + 1 := ⟨3 * List.length h + 1, rfl⟩
  rw [equal, if_pos entity, hn, sameObjects]
  simp only [ha, hb, hra, hrb, if_true]
  exact hxy _

/-- Entities of one class whose raw data are the same data are equal. -/
theorem Method.equal_of_toRaw {g : Catalog} {h : Heap} {a b : Address} {cls : ClassId}
    {form : Value} (ha : (Heap.get h a).species = .entity cls)
    (hb : (Heap.get h b).species = .entity cls) (hra : toRaw g h a = .ok form)
    (hrb : toRaw g h b = .ok form) (hform : form.IsData) :
    equal g h (.object a) (.object b) = .ok true :=
  equal_eq_of_toRaw ha hb hra hrb fun _ => Value.sameWith_self_of_isData hform

/-- An entity that shows raw data is one of its class. -/
theorem Heap.Shows.species {g : Catalog} {h : Heap} {cls : ClassId} {v raw : Value}
    (hs : Shows g h (.entity cls) v raw) :
    ∃ a, v = .object a ∧ (get h a).species = .entity cls := by
  cases hs with
  | @entity a _ _ _ _ _ hc => exact ⟨a, rfl, by rw [hc]; rfl⟩

namespace Construction

variable {g : Catalog}

/-- **Raw data are brought to their normal form by one construction, and another changes nothing**:
an entity constructed from plain data tells the normal form of the data, from which an equal entity
is constructed that tells the same. -/
theorem round_trip (hg : g.WellFormed) {cls : ClassId} {es : Entries}
    (hes : (Value.dict es).isPlain = true) {h h₁ : Heap} {v : Value}
    (hv : ofRaw g cls (.dict es) h = .ok (v, h₁)) :
    ∃ a form, v = .object a ∧ Method.toRaw g h₁ a = .ok form ∧
      g.Normal (.entity cls) (.dict es) form ∧
      ∃ b h₂, ofRaw g cls form h₁ = .ok (.object b, h₂) ∧
        Method.equal g h₂ (.object b) (.object a) = .ok true ∧
        Method.toRaw g h₂ b = .ok form := by
  have data : (Value.dict es).IsData := Value.isData_of_isPlain _ hes
  obtain ⟨form, normal⟩ := Catalog.exists_normal hg _ cls _ le_rfl data h v h₁ hv
  obtain ⟨v', h', hmade, -, shows_a⟩ := normal.exists_shows hg data h
  -- construction has one outcome only
  have same : Except.ok (v, h₁) = Except.ok (ε := Failure) (v', h') := hv.symm.trans hmade
  cases same
  obtain ⟨a, rfl, species_a⟩ := shows_a.species
  have data' : form.IsData := normal.isData hg data
  obtain ⟨w, h₂, hagain, hle, shows_b⟩ := (normal.fixed hg data).exists_shows hg data' h₁
  obtain ⟨b, rfl, species_b⟩ := shows_b.species
  have shows_a' := shows_a.mono (.of_extended hle)
  obtain ⟨a', ha', species_a'⟩ := shows_a'.species
  cases ha'
  exact ⟨a, form, rfl, shows_a.toRaw hg, normal, b, h₂, hagain,
    Method.equal_of_toRaw species_b species_a' (shows_b.toRaw hg) (shows_a'.toRaw hg) data',
    shows_b.toRaw hg⟩

/-- A class of tags, which have a label, and a class of posts, which have a title, a date, an author
who is looked up, and tags. -/
def posts : Catalog where
  classes := (Catalog.initial.classes ++ [⟨"Tag", "Tag", [1, 0], [("label", Checker.string)], none,
      none⟩]) ++
    [⟨"Post", "Post", [2, 0],
      [("title", Checker.string), ("written", .date false),
        ("author", .reference (.named "User") (.bool true) false),
        ("tags", .arrayOf (.reference (.named "Tag") (.bool false) false) false)],
      none, none⟩]
  names := [("Tag", 1), ("Post", 2)]

theorem wellFormed_posts : posts.WellFormed := by
  have tags : (⟨Catalog.initial.classes ++ [⟨"Tag", "Tag", [1, 0], [("label", Checker.string)],
      none, none⟩], []⟩ : Catalog).WellFormed :=
    Catalog.wellFormed_initial.append (by decide) (by decide)
  exact tags.append (by decide) (by decide)

/-- A post whose date is a bare day, and one of whose tags is given as pairs. -/
def rawPost : Entries :=
  [(.str "_id", .int 7), (.str "written", .str "2024-01-02"), (.str "author", .str "ann"),
   (.str "tags", .list [.list [.list [.str "label", .str "news"]], .dict []])]

/-- The normal form of that post. -/
def formPost : Value :=
  .dict [(.str "_id", .int 7), (.str "title", .null), (.str "written", .str "2024-01-02T00:00:00"),
    (.str "author", .str "ann"),
    (.str "tags", .list [.dict [(.str "label", .str "news")], .dict [(.str "label", .null)]])]

/-- The post is brought to its normal form, from which an equal post is constructed. -/
theorem round_trip_post : ∃ h₁, ofRaw posts 2 (.dict rawPost) [] = .ok (.object 2, h₁) ∧
    Method.toRaw posts h₁ 2 = .ok formPost ∧
    ∃ b h₂, ofRaw posts 2 formPost h₁ = .ok (.object b, h₂) ∧
      Method.equal posts h₂ (.object b) (.object 2) = .ok true ∧
      Method.toRaw posts h₂ b = .ok formPost := by
  have built : ∃ h₁, ofRaw posts 2 (.dict rawPost) [] = .ok (.object 2, h₁) ∧
      Method.toRaw posts h₁ 2 = .ok formPost := ⟨_, rfl, rfl⟩
  obtain ⟨h₁, hv, told⟩ := built
  obtain ⟨a, form, ha, hform, -, b, h₂, hb, same, told'⟩ :=
    round_trip wellFormed_posts (by decide) hv
  cases ha
  have : form = formPost := Except.ok.inj (hform.symm.trans told)
  subst this
  exact ⟨h₁, hv, told, b, h₂, hb, same, told'⟩

end Construction

end EntitySchema
