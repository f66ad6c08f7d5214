import Mathlib.Data.List.Nodup

/-! Ordered trees with labels. A walk lists every node in preorder with the labels above
it. Inserting a subtree below a node moves nothing: the old nodes stay where they are, and
what is new lies in the subtree. -/

inductive RoseTree (α : Type*) where
  | node (label : α) (children : List (RoseTree α))

namespace RoseTree

/-- A label where it stands: the labels above it, the nearest first. -/
structure Placed (α : Type*) where
  el : α
  ancestors : List α
  deriving DecidableEq

variable {α ι : Type*}

def label : RoseTree α → α
  | node a _ => a

mutual
/-- The nodes of a subtree in preorder, below the given labels. -/
def walk (ancestors : List α) : RoseTree α → List (Placed α)
  | node a cs => ⟨a, ancestors⟩ :: walkAll (a :: ancestors) cs
def walkAll (ancestors : List α) : List (RoseTree α) → List (Placed α)
  | [] => []
  | c :: cs => walk ancestors c ++ walkAll ancestors cs
end

/-- The keys of all nodes, in preorder. -/
def keys (key : α → ι) (d : RoseTree α) : List ι := (d.walk []).map fun x => key x.el

/-! ### Walks -/

theorem walkAll_eq (ancestors : List α) (cs : List (RoseTree α)) :
    walkAll ancestors cs = cs.flatMap (walk ancestors) := by
  induction cs with
  | nil => rfl
  | cons c cs ih => rw [walkAll, ih, List.flatMap_cons]

mutual
theorem map_el_walk (as bs : List α) : ∀ d : RoseTree α,
    (walk as d).map Placed.el = (walk bs d).map Placed.el
  | node a cs => by
    rw [walk, walk, List.map_cons, List.map_cons, map_el_walkAll (a :: as) (a :: bs) cs]
theorem map_el_walkAll (as bs : List α) : ∀ cs : List (RoseTree α),
    (walkAll as cs).map Placed.el = (walkAll bs cs).map Placed.el
  | [] => rfl
  | c :: cs => by
    rw [walkAll, walkAll, List.map_append, List.map_append, map_el_walk as bs c,
      map_el_walkAll as bs cs]
end

mutual
/-- Every node of a subtree is its root or lies below it. -/
theorem root_of_mem_walk {x : Placed α} : ∀ {as : List α} {d : RoseTree α}, x ∈ walk as d →
    x.el = d.label ∨ d.label ∈ x.ancestors
  | as, node a cs, h => by
    rw [walk] at h
    rcases List.mem_cons.mp h with rfl | h
    · exact Or.inl rfl
    · exact Or.inr (ancestors_of_mem_walkAll h a List.mem_cons_self)
theorem ancestors_of_mem_walk {x : Placed α} : ∀ {as : List α} {d : RoseTree α}, x ∈ walk as d →
    ∀ b ∈ as, b ∈ x.ancestors
  | as, node a cs, h, b, hb => by
    rw [walk] at h
    rcases List.mem_cons.mp h with rfl | h
    · exact hb
    · exact ancestors_of_mem_walkAll h b (List.mem_cons_of_mem a hb)
theorem ancestors_of_mem_walkAll {x : Placed α} : ∀ {as : List α} {cs : List (RoseTree α)},
    x ∈ walkAll as cs → ∀ b ∈ as, b ∈ x.ancestors
  | as, c :: cs, h, b, hb => by
    rw [walkAll] at h
    rcases List.mem_append.mp h with h | h
    · exact ancestors_of_mem_walk h b hb
    · exact ancestors_of_mem_walkAll h b hb
end

theorem mem_walk_label (as : List α) (d : RoseTree α) : ⟨d.label, as⟩ ∈ walk as d := by
  cases d with
  | node a cs => exact List.mem_cons_self

/-! ### Keys -/

/-- No two nodes share a key. -/
def Distinct (key : α → ι) (d : RoseTree α) : Prop :=
  ∀ x ∈ d.walk [], ∀ y ∈ d.walk [], key x.el = key y.el → x = y

variable {key : α → ι}

theorem mem_keys {d : RoseTree α} {i : ι} : i ∈ d.keys key ↔ ∃ x ∈ d.walk [], key x.el = i :=
  List.mem_map

theorem map_key_walk (as : List α) (d : RoseTree α) :
    (walk as d).map (fun x => key x.el) = d.keys key := by
  have h := congrArg (List.map key) (map_el_walk as [] d)
  rwa [List.map_map, List.map_map] at h

theorem key_mem_keys {d : RoseTree α} {as : List α} {x : Placed α} (hx : x ∈ walk as d) :
    key x.el ∈ d.keys key := by
  rw [← map_key_walk as d]
  exact List.mem_map_of_mem hx

theorem eq_of_mem_walk {d : RoseTree α} (hnodup : (d.keys key).Nodup) {as : List α}
    {x y : Placed α} (hx : x ∈ walk as d) (hy : y ∈ walk as d) (hkey : key x.el = key y.el) :
    x = y := by
  rw [← map_key_walk as d] at hnodup
  exact List.inj_on_of_nodup_map hnodup hx hy hkey

/-! ### Insertions -/

variable [DecidableEq ι]

section Definitions

variable (key : α → ι)

mutual
/-- Inserts a subtree as child number `index` of the node with key `parent`. -/
def insertAt (parent : ι) (index : ℕ) (t : RoseTree α) : RoseTree α → RoseTree α
  | node a cs =>
    if key a = parent then node a (cs.take index ++ t :: cs.drop index)
    else node a (insertAll parent index t cs)
def insertAll (parent : ι) (index : ℕ) (t : RoseTree α) : List (RoseTree α) → List (RoseTree α)
  | [] => []
  | c :: cs => insertAt parent index t c :: insertAll parent index t cs
end

end Definitions

variable {parent : ι} {index : ℕ} {t : RoseTree α}

theorem mem_insertIdx_iff {cs : List (RoseTree α)} {c : RoseTree α} :
    c ∈ cs.take index ++ t :: cs.drop index ↔ c = t ∨ c ∈ cs := by
  have hsplit : c ∈ cs ↔ c ∈ cs.take index ∨ c ∈ cs.drop index := by
    rw [← List.mem_append, List.take_append_drop]
  rw [List.mem_append, List.mem_cons, hsplit, or_left_comm]

mutual
/-- An insertion moves no node. -/
theorem walk_subset_insertAt {x : Placed α} : ∀ {as : List α} {d : RoseTree α}, x ∈ walk as d →
    x ∈ walk as (insertAt key parent index t d)
  | as, node a cs, h => by
    rw [walk] at h
    rw [insertAt]
    split_ifs with hp
    · rw [walk]
      rcases List.mem_cons.mp h with rfl | h
      · exact List.mem_cons_self
      · rw [walkAll_eq] at h ⊢
        obtain ⟨c, hc, hx⟩ := List.mem_flatMap.mp h
        refine List.mem_cons_of_mem _ (List.mem_flatMap.mpr ⟨c, ?_, hx⟩)
        exact mem_insertIdx_iff.mpr (Or.inr hc)
    · rw [walk]
      rcases List.mem_cons.mp h with rfl | h
      · exact List.mem_cons_self
      · exact List.mem_cons_of_mem _ (walkAll_subset_insertAll h)
theorem walkAll_subset_insertAll {x : Placed α} : ∀ {as : List α} {cs : List (RoseTree α)},
    x ∈ walkAll as cs → x ∈ walkAll as (insertAll key parent index t cs)
  | as, c :: cs, h => by
    rw [walkAll] at h
    rw [insertAll, walkAll]
    rcases List.mem_append.mp h with h | h
    · exact List.mem_append_left _ (walk_subset_insertAt h)
    · exact List.mem_append_right _ (walkAll_subset_insertAll h)
end

mutual
/-- What is new lies in the inserted subtree, below the chosen node. -/
theorem mem_walk_insertAt {x : Placed α} : ∀ {as : List α} {d : RoseTree α},
    x ∈ walk as (insertAt key parent index t d) → x ∈ walk as d ∨
      ∃ y ∈ walk as d, key y.el = parent ∧ x ∈ walk (y.el :: y.ancestors) t
  | as, node a cs, h => by
    rw [insertAt] at h
    rw [walk]
    split_ifs at h with hp
    · rw [walk] at h
      rcases List.mem_cons.mp h with rfl | h
      · exact Or.inl List.mem_cons_self
      · rw [walkAll_eq] at h
        obtain ⟨c, hc, hx⟩ := List.mem_flatMap.mp h
        rcases mem_insertIdx_iff.mp hc with rfl | hc
        · exact Or.inr ⟨⟨a, as⟩, List.mem_cons_self, hp, hx⟩
        · rw [walkAll_eq]
          exact Or.inl (List.mem_cons_of_mem _ (List.mem_flatMap.mpr ⟨c, hc, hx⟩))
    · rw [walk] at h
      rcases List.mem_cons.mp h with rfl | h
      · exact Or.inl List.mem_cons_self
      · rcases mem_walkAll_insertAll h with h | ⟨y, hy, hnew⟩
        · exact Or.inl (List.mem_cons_of_mem _ h)
        · exact Or.inr ⟨y, List.mem_cons_of_mem _ hy, hnew⟩
theorem mem_walkAll_insertAll {x : Placed α} : ∀ {as : List α} {cs : List (RoseTree α)},
    x ∈ walkAll as (insertAll key parent index t cs) → x ∈ walkAll as cs ∨
      ∃ y ∈ walkAll as cs, key y.el = parent ∧ x ∈ walk (y.el :: y.ancestors) t
  | as, c :: cs, h => by
    rw [insertAll, walkAll] at h
    rw [walkAll]
    rcases List.mem_append.mp h with h | h
    · rcases mem_walk_insertAt h with h | ⟨y, hy, hnew⟩
      · exact Or.inl (List.mem_append_left _ h)
      · exact Or.inr ⟨y, List.mem_append_left _ hy, hnew⟩
    · rcases mem_walkAll_insertAll h with h | ⟨y, hy, hnew⟩
      · exact Or.inl (List.mem_append_right _ h)
      · exact Or.inr ⟨y, List.mem_append_right _ hy, hnew⟩
end

mutual
/-- The inserted subtree stands below some labels. -/
theorem walk_subset_of_parent : ∀ {as : List α} {d : RoseTree α},
    (∃ y ∈ walk as d, key y.el = parent) →
      ∃ bs, ∀ x ∈ walk bs t, x ∈ walk as (insertAt key parent index t d)
  | as, node a cs, ⟨y, hy, hyp⟩ => by
    rw [insertAt]
    split_ifs with hp
    · refine ⟨a :: as, fun x hx => ?_⟩
      rw [walk, walkAll_eq]
      refine List.mem_cons_of_mem _ (List.mem_flatMap.mpr ⟨t, ?_, hx⟩)
      exact mem_insertIdx_iff.mpr (Or.inl rfl)
    · rw [walk] at hy ⊢
      rcases List.mem_cons.mp hy with rfl | hy
      · exact absurd hyp hp
      · obtain ⟨bs, hbs⟩ := walkAll_subset_of_parent ⟨y, hy, hyp⟩
        exact ⟨bs, fun x hx => List.mem_cons_of_mem _ (hbs x hx)⟩
theorem walkAll_subset_of_parent : ∀ {as : List α} {cs : List (RoseTree α)},
    (∃ y ∈ walkAll as cs, key y.el = parent) →
      ∃ bs, ∀ x ∈ walk bs t, x ∈ walkAll as (insertAll key parent index t cs)
  | as, c :: cs, ⟨y, hy, hyp⟩ => by
    rw [walkAll] at hy
    rw [insertAll, walkAll]
    rcases List.mem_append.mp hy with hy | hy
    · obtain ⟨bs, hbs⟩ := walk_subset_of_parent ⟨y, hy, hyp⟩
      exact ⟨bs, fun x hx => List.mem_append_left _ (hbs x hx)⟩
    · obtain ⟨bs, hbs⟩ := walkAll_subset_of_parent ⟨y, hy, hyp⟩
      exact ⟨bs, fun x hx => List.mem_append_right _ (hbs x hx)⟩
end

/-- A subtree with fresh keys of its own keeps a tree distinct. -/
theorem distinct_insertAt {d : RoseTree α} (hd : d.Distinct key) (hnodup : (t.keys key).Nodup)
    (hfresh : ∀ i ∈ t.keys key, i ∉ d.keys key) :
    (insertAt key parent index t d).Distinct key := by
  intro x hx y hy hid
  rcases mem_walk_insertAt hx with hx | ⟨u, hu, hup, hx⟩
  · rcases mem_walk_insertAt hy with hy | ⟨v, hv, hvp, hy⟩
    · exact hd x hx y hy hid
    · exact absurd (key_mem_keys hx) (hfresh _ (hid ▸ key_mem_keys hy))
  · rcases mem_walk_insertAt hy with hy | ⟨v, hv, hvp, hy⟩
    · exact absurd (key_mem_keys hy) (hfresh _ (hid ▸ key_mem_keys hx))
    · obtain rfl := hd u hu v hv (hup.trans hvp.symm)
      exact eq_of_mem_walk hnodup hx hy hid

theorem keys_subset_insertAt {d : RoseTree α} {i : ι} (h : i ∈ d.keys key) :
    i ∈ (insertAt key parent index t d).keys key := by
  obtain ⟨x, hx, hi⟩ := mem_keys.mp h
  exact mem_keys.mpr ⟨x, walk_subset_insertAt hx, hi⟩

theorem label_mem_keys_insertAt {d : RoseTree α} (h : parent ∈ d.keys key) :
    key t.label ∈ (insertAt key parent index t d).keys key := by
  obtain ⟨bs, hbs⟩ := walk_subset_of_parent (t := t) (mem_keys.mp h)
  exact key_mem_keys (hbs _ (mem_walk_label bs t))

end RoseTree
