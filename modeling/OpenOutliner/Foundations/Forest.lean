import Mathlib.Logic.Relation
import Mathlib.Data.List.Nodup
import Mathlib.Order.WellFoundedSet

namespace OpenOutliner.Foundations

open Relation

variable {α β : Type} {kids : α → List α}

/-- `out` lists the trees hanging from `xs` in preorder, each point with its depth. -/
inductive Listing (kids : α → List α) : List α → ℕ → List (α × ℕ) → Prop
  | nil (d : ℕ) : Listing kids [] d []
  | cons {x : α} {xs : List α} {d : ℕ} {sub rest : List (α × ℕ)} :
      Listing kids (kids x) (d + 1) sub → Listing kids xs d rest →
        Listing kids (x :: xs) d ((x, d) :: (sub ++ rest))

def ChildOf (kids : α → List α) (c p : α) : Prop := c ∈ kids p

theorem Listing.unique {xs : List α} {d : ℕ} {out out' : List (α × ℕ)}
    (h : Listing kids xs d out) (h' : Listing kids xs d out') : out = out' := by
  induction h generalizing out' with
  | nil => cases h'; rfl
  | cons _ _ ihsub ihrest =>
    cases h' with
    | cons hsub hrest => rw [ihsub hsub, ihrest hrest]

theorem Listing.map {kids' : β → List β} (f : α → β) (hf : ∀ x, kids' (f x) = (kids x).map f)
    {xs : List α} {d : ℕ} {out : List (α × ℕ)} (h : Listing kids xs d out) :
    Listing kids' (xs.map f) d (out.map fun e => (f e.1, e.2)) := by
  induction h with
  | nil d => exact .nil d
  | @cons x xs d sub rest hsub hrest ihsub ihrest =>
    rw [List.map_cons, List.map_cons, List.map_append]
    apply Listing.cons _ ihrest
    rw [hf]
    exact ihsub

theorem Listing.mem_iff {xs : List α} {d : ℕ} {out : List (α × ℕ)} (h : Listing kids xs d out)
    (y : α) : y ∈ out.map Prod.fst ↔ ∃ x ∈ xs, ReflTransGen (ChildOf kids) y x := by
  induction h with
  | nil => simp
  | @cons x xs d sub rest _ _ ihsub ihrest =>
    simp only [List.map_cons, List.map_append, List.mem_cons, List.mem_append, ihsub, ihrest]
    constructor
    · rintro (rfl | ⟨c, hc, hyc⟩ | ⟨z, hz, hyz⟩)
      · exact ⟨y, Or.inl rfl, .refl⟩
      · exact ⟨x, Or.inl rfl, hyc.tail hc⟩
      · exact ⟨z, Or.inr hz, hyz⟩
    · rintro ⟨z, rfl | hz, hyz⟩
      · cases hyz with
        | refl => exact Or.inl rfl
        | tail hyc hc => exact Or.inr (Or.inl ⟨_, hc, hyc⟩)
      · exact Or.inr (Or.inr ⟨z, hz, hyz⟩)

theorem exists_listing (hwf : WellFounded (ChildOf kids)) (xs : List α) (d : ℕ) :
    ∃ out, Listing kids xs d out := by
  have htree : ∀ p : α, ∀ d, ∃ out, Listing kids (kids p) d out := by
    intro p
    induction p using hwf.induction with
    | _ p ih =>
      have hlist : ∀ ys : List α, (∀ y ∈ ys, ChildOf kids y p) → ∀ d, ∃ out, Listing kids ys d out := by
        intro ys
        induction ys with
        | nil => exact fun _ d => ⟨[], .nil d⟩
        | cons y ys ihys =>
          intro hys d
          obtain ⟨sub, hsub⟩ := ih y (hys y (List.mem_cons_self ..)) (d + 1)
          obtain ⟨rest, hrest⟩ := ihys (fun z hz => hys z (List.mem_cons_of_mem _ hz)) d
          exact ⟨_, .cons hsub hrest⟩
      exact hlist (kids p) (fun _ hy => hy)
  induction xs with
  | nil => exact ⟨[], .nil d⟩
  | cons x xs ih =>
    obtain ⟨sub, hsub⟩ := htree x (d + 1)
    obtain ⟨rest, hrest⟩ := ih
    exact ⟨_, .cons hsub hrest⟩

theorem wellFounded_childOf {s : Set α} (hs : s.Finite)
    (hmem : ∀ c p, ChildOf kids c p → c ∈ s ∧ p ∈ s) (hacyclic : ∀ c, ¬ TransGen (ChildOf kids) c c) :
    WellFounded (ChildOf kids) := by
  have : IsStrictOrder α (TransGen (ChildOf kids)) :=
    { irrefl := hacyclic, trans := fun _ _ _ => TransGen.trans }
  have hon : s.WellFoundedOn (TransGen (ChildOf kids)) := hs.wellFoundedOn
  rw [Set.wellFoundedOn_iff] at hon
  apply Subrelation.wf _ hon
  intro c p hcp
  exact ⟨.single hcp, hmem c p hcp⟩

section Nodup

variable {up : α → α} (hup : ∀ c p, ChildOf kids c p → up c = p) (hnd : ∀ p, (kids p).Nodup)
  (hwf : WellFounded (ChildOf kids))

include hwf in
theorem childOf_irrefl (c : α) : ¬ TransGen (ChildOf kids) c c :=
  fun h => hwf.transGen.asymmetric _ _ h h

include hup hwf in
theorem siblings_apart {p c c' : α} (hc : ChildOf kids c p) (hc' : ChildOf kids c' p)
    (h : ReflTransGen (ChildOf kids) c c') : c = c' := by
  rcases ReflTransGen.cases_head h with rfl | ⟨m, hm, hmc⟩
  · rfl
  · obtain rfl : m = p := (hup c m hm).symm.trans (hup c p hc)
    exact absurd (TransGen.tail' hmc hc') (childOf_irrefl hwf m)

include hup hnd hwf in
theorem Listing.nodup {xs : List α} {d : ℕ} {out : List (α × ℕ)} (h : Listing kids xs d out)
    (hxs : xs.Nodup) (hapart : ∀ x ∈ xs, ∀ y ∈ xs, ReflTransGen (ChildOf kids) x y → x = y) :
    (out.map Prod.fst).Nodup := by
  have hunique : Relator.RightUnique (ChildOf kids) :=
    fun c p p' hp hp' => (hup c p hp).symm.trans (hup c p' hp')
  induction h with
  | nil => exact List.nodup_nil
  | @cons x xs d sub rest hsub hrest ihsub ihrest =>
    obtain ⟨hx, hxs⟩ := List.nodup_cons.mp hxs
    have hsub' := ihsub (hnd x) (fun c hc c' hc' => siblings_apart hup hwf hc hc')
    have hrest' := ihrest hxs (fun y hy z hz =>
      hapart y (List.mem_cons_of_mem _ hy) z (List.mem_cons_of_mem _ hz))
    have hfar : ∀ y ∈ xs, ¬ ReflTransGen (ChildOf kids) x y := by
      intro y hy hxy
      have := hapart x (List.mem_cons_self ..) y (List.mem_cons_of_mem _ hy) hxy
      exact hx (this ▸ hy)
    rw [List.map_cons, List.map_append, List.nodup_cons, List.mem_append, hsub.mem_iff, hrest.mem_iff]
    refine ⟨?_, hsub'.append hrest' ?_⟩
    · rintro (⟨c, hc, hxc⟩ | ⟨y, hy, hxy⟩)
      · exact childOf_irrefl hwf x (TransGen.tail' hxc hc)
      · exact hfar y hy hxy
    · intro z hz hz'
      obtain ⟨c, hc, hzc⟩ := (hsub.mem_iff z).mp hz
      obtain ⟨y, hy, hzy⟩ := (hrest.mem_iff z).mp hz'
      rcases ReflTransGen.total_of_right_unique hunique (hzc.tail hc) hzy with hxy | hyx
      · exact hfar y hy hxy
      · have := hapart y (List.mem_cons_of_mem _ hy) x (List.mem_cons_self ..) hyx
        exact hx (this ▸ hy)

end Nodup

/-- Pop a point, show it and push its children, first child on top, until the stack is empty. -/
def drain (kids : α → List α) : ℕ → List (α × ℕ) → List (α × ℕ) → Option (List (α × ℕ))
  | 0, _, _ => none
  | _ + 1, out, [] => some out
  | fuel + 1, out, (x, d) :: stack =>
    drain kids fuel (out ++ [(x, d)]) ((kids x).map (fun c => (c, d + 1)) ++ stack)

theorem drain_listing {xs : List α} {d : ℕ} {l : List (α × ℕ)} (h : Listing kids xs d l) (fuel : ℕ)
    (out stack : List (α × ℕ)) :
    drain kids (fuel + l.length) out (xs.map (fun x => (x, d)) ++ stack) =
      drain kids fuel (out ++ l) stack := by
  induction h generalizing fuel out stack with
  | nil => simp
  | @cons x xs d sub rest _ _ ihsub ihrest =>
    have hlen : fuel + ((x, d) :: (sub ++ rest)).length = fuel + rest.length + sub.length + 1 := by
      simp only [List.length_cons, List.length_append]
      omega
    rw [hlen, List.map_cons, List.cons_append, drain, ihsub, ihrest]
    simp

theorem drain_eq {xs : List α} {l : List (α × ℕ)} (h : Listing kids xs 0 l) {fuel : ℕ}
    (hfuel : l.length < fuel) : drain kids fuel [] (xs.map fun x => (x, 0)) = some l := by
  obtain ⟨k, rfl⟩ : ∃ k, fuel = k + 1 + l.length := ⟨fuel - 1 - l.length, by omega⟩
  have hrun := drain_listing h (k + 1) [] []
  rwa [List.append_nil, List.nil_append] at hrun

def drainPoints (kids : α → List α) : ℕ → List α → List α → Option (List α)
  | 0, _, _ => none
  | _ + 1, out, [] => some out
  | fuel + 1, out, x :: stack => drainPoints kids fuel (out ++ [x]) (kids x ++ stack)

theorem drain_points (kids : α → List α) (fuel : ℕ) (out stack : List (α × ℕ)) :
    (drain kids fuel out stack).map (List.map Prod.fst) =
      drainPoints kids fuel (out.map Prod.fst) (stack.map Prod.fst) := by
  induction fuel generalizing out stack with
  | zero => rfl
  | succ fuel ih =>
    cases stack with
    | nil => rfl
    | cons e stack =>
      have hkids : ((kids e.1).map fun c => (c, e.2 + 1)).map Prod.fst = kids e.1 := by
        rw [List.map_map]
        exact List.map_id _
      rw [drain, ih, List.map_cons, drainPoints, List.map_append, List.map_append, hkids]
      rfl

end OpenOutliner.Foundations
