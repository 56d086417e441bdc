import Mathlib.Order.Basic

namespace OpenOutliner.Foundations

variable {St Act : Type} {step : St → Act → Option St} {ok : St → Act → Prop}

inductive Runs (step : St → Act → Option St) (ok : St → Act → Prop) (s : St) : St → Prop
  | refl : Runs step ok s s
  | step {t u : St} (a : Act) : Runs step ok s t → ok t a → step t a = some u → Runs step ok s u

namespace Runs

variable {s t u : St}

theorem single {a : Act} (hok : ok s a) (h : step s a = some t) : Runs step ok s t :=
  .step a .refl hok h

theorem trans (hst : Runs step ok s t) (htu : Runs step ok t u) : Runs step ok s u := by
  induction htu with
  | refl => exact hst
  | step a _ hok h ih => exact .step a ih hok h

theorem invariant {Inv : St → Prop} (hstep : ∀ {s a t}, Inv s → ok s a → step s a = some t → Inv t)
    (hs : Inv s) (h : Runs step ok s t) : Inv t := by
  induction h with
  | refl => exact hs
  | step a _ ha h ih => exact hstep ih ha h

/-- A preorder that every step from a good state respects relates both ends of a run. -/
theorem relates {Inv : St → Prop} {Rel : St → St → Prop} (hrefl : ∀ s, Rel s s)
    (htrans : ∀ {s t u}, Rel s t → Rel t u → Rel s u)
    (hinv : ∀ {s a t}, Inv s → ok s a → step s a = some t → Inv t)
    (hstep : ∀ {s a t}, Inv s → ok s a → step s a = some t → Rel s t) (hs : Inv s)
    (h : Runs step ok s t) : Rel s t := by
  induction h with
  | refl => exact hrefl s
  | step a hrun ha h ih => exact htrans ih (hstep (invariant hinv hs hrun) ha h)

end Runs

def execute (step : St → Act → Option St) (s : St) : List Act → Option St
  | [] => some s
  | a :: as => (step s a).bind fun t => execute step t as

section Execute

variable {s t u : St} {a : Act} {as bs : List Act}

theorem execute_cons (h : step s a = some t) (hrest : execute step t as = some u) :
    execute step s (a :: as) = some u := by
  rw [execute, h, Option.bind_some, hrest]

theorem execute_trans (h : execute step s as = some t) (hrest : execute step t bs = some u) :
    execute step s (as ++ bs) = some u := by
  induction as generalizing s with
  | nil =>
    cases h
    exact hrest
  | cons a as ih =>
    obtain ⟨mid, hmid, h⟩ := Option.bind_eq_some_iff.mp h
    exact execute_cons hmid (ih h)

end Execute

theorem execute_runs_of {s t : St} {as : List Act} (hok : ∀ a ∈ as, ∀ s, ok s a)
    (h : execute step s as = some t) : Runs step ok s t := by
  induction as generalizing s with
  | nil =>
    cases h
    exact .refl
  | cons a as ih =>
    obtain ⟨u, hu, ht⟩ := Option.bind_eq_some_iff.mp h
    obtain ⟨ha, has⟩ := List.forall_mem_cons.mp hok
    exact (Runs.single (ha s) hu).trans (ih has ht)

theorem execute_runs {s t : St} {as : List Act} (h : execute step s as = some t) :
    Runs step (fun _ _ => True) s t :=
  execute_runs_of (fun _ _ _ => trivial) h

def executeIf (step : St → Act → Option St) (check : St → Act → Bool) : St → List Act → Option St :=
  execute fun s a => if check s a then step s a else none

theorem executeIf_runs {check : St → Act → Bool} (hcheck : ∀ s a, check s a = true → ok s a) {s t : St}
    {as : List Act} (h : executeIf step check s as = some t) : Runs step ok s t := by
  unfold executeIf at h
  induction as generalizing s with
  | nil =>
    cases h
    exact .refl
  | cons a as ih =>
    obtain ⟨u, hu, ht⟩ := Option.bind_eq_some_iff.mp h
    dsimp only at hu
    split_ifs at hu with ha
    exact (Runs.single (hcheck s a ha) hu).trans (ih ht)

end OpenOutliner.Foundations
