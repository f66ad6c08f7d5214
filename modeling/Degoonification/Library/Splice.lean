import Degoonification.Library.RoseTree

/-! Trees seen through some of their nodes. Splicing drops the nodes that have no image and
puts their children in their place; a walk of what is left meets the other nodes in the same
order, below those of their ancestors that are left. -/

namespace RoseTree

variable {α β : Type*}

mutual
/-- Drops the nodes without an image, their children taking their place. -/
def splice (g : α → Option β) : RoseTree α → List (RoseTree β)
  | node a cs =>
    match g a with
    | some b => [node b (spliceAll g cs)]
    | none => spliceAll g cs
def spliceAll (g : α → Option β) : List (RoseTree α) → List (RoseTree β)
  | [] => []
  | c :: cs => splice g c ++ spliceAll g cs
end

/-- A node where it stands among the nodes with an image. -/
def Placed.strip (g : α → Option β) (x : Placed α) : Option (Placed β) :=
  (g x.el).map fun b => ⟨b, x.ancestors.filterMap g⟩

mutual
theorem walk_splice (g : α → Option β) : ∀ (as : List α) (d : RoseTree α),
    (splice g d).flatMap (walk (as.filterMap g)) = (walk as d).filterMap (Placed.strip g)
  | as, node a cs => by
    unfold splice
    rw [walk]
    cases hg : g a with
    | some b =>
      have hstrip : Placed.strip g ⟨a, as⟩ = some ⟨b, as.filterMap g⟩ := by
        simp [Placed.strip, hg]
      rw [List.filterMap_cons_some hstrip, ← walkAll_splice g (a :: as) cs,
        List.filterMap_cons_some hg]
      simp only [List.flatMap_cons, List.flatMap_nil, List.append_nil, walk, walkAll_eq]
    | none =>
      have hstrip : Placed.strip g ⟨a, as⟩ = none := by
        simp [Placed.strip, hg]
      rw [List.filterMap_cons_none hstrip, ← walkAll_splice g (a :: as) cs,
        List.filterMap_cons_none hg]
theorem walkAll_splice (g : α → Option β) : ∀ (as : List α) (cs : List (RoseTree α)),
    (spliceAll g cs).flatMap (walk (as.filterMap g)) = (walkAll as cs).filterMap (Placed.strip g)
  | _, [] => rfl
  | as, c :: cs => by
    rw [spliceAll, walkAll, List.flatMap_append, List.filterMap_append, walk_splice g as c,
      walkAll_splice g as cs]
end

/-- A tree that is left in one piece. -/
theorem walk_of_splice {g : α → Option β} {d : RoseTree α} {e : RoseTree β}
    (h : splice g d = [e]) : e.walk [] = (d.walk []).filterMap (Placed.strip g) := by
  have hwalk := walk_splice g [] d
  rw [h] at hwalk
  simpa using hwalk

variable {ι : Type*} [DecidableEq ι] {key : α → ι}

@[simp] theorem label_insertAt (parent : ι) (index : ℕ) (t d : RoseTree α) :
    (insertAt key parent index t d).label = d.label := by
  cases d with
  | node a cs =>
    rw [insertAt]
    split_ifs <;> rfl

end RoseTree
