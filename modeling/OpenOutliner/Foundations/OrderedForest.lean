import OpenOutliner.Foundations.Forest

namespace OpenOutliner.Foundations

variable {α β : Type}

def preorder (kids : α → List α) : ℕ → ℕ → List α → Option (List (α × ℕ))
  | 0, _, _ => none
  | _ + 1, _, [] => some []
  | fuel + 1, d, x :: xs =>
    (preorder kids fuel (d + 1) (kids x)).bind fun sub =>
      (preorder kids fuel d xs).map fun rest => (x, d) :: (sub ++ rest)

section Listings

variable {kids kids' : α → List α} {xs : List α} {d : ℕ} {out : List (α × ℕ)}

theorem preorder_eq (h : Listing kids xs d out) {fuel : ℕ} (hfuel : out.length < fuel) :
    preorder kids fuel d xs = some out := by
  induction h generalizing fuel with
  | nil d =>
    obtain ⟨n, rfl⟩ := Nat.exists_eq_add_one_of_ne_zero (Nat.ne_of_gt hfuel)
    rfl
  | @cons x xs d sub rest _ _ ihsub ihrest =>
    obtain ⟨n, rfl⟩ := Nat.exists_eq_add_one_of_ne_zero (Nat.ne_of_gt (Nat.zero_lt_of_lt hfuel))
    rw [List.length_cons, List.length_append] at hfuel
    rw [preorder, ihsub (by omega), Option.bind_some, ihrest (by omega), Option.map_some]

theorem listing_of_preorder (fuel : ℕ) (h : preorder kids fuel d xs = some out) : Listing kids xs d out := by
  induction fuel generalizing d xs out with
  | zero => cases h
  | succ fuel ih =>
    cases xs with
    | nil =>
      cases h
      exact .nil d
    | cons x xs =>
      obtain ⟨sub, hsub, hmap⟩ := Option.bind_eq_some_iff.mp h
      obtain ⟨rest, hrest, rfl⟩ := Option.map_eq_some_iff.mp hmap
      exact .cons (ih hsub) (ih hrest)

theorem Listing.shift (h : Listing kids xs d out) (k : ℕ) :
    Listing kids xs (d + k) (out.map fun e => (e.1, e.2 + k)) := by
  induction h with
  | nil d => exact .nil _
  | @cons x xs d sub rest _ _ ihsub ihrest =>
    rw [List.map_cons, List.map_append]
    refine .cons ?_ ihrest
    rwa [Nat.add_right_comm] at ihsub

theorem Listing.depth_le (h : Listing kids xs d out) : ∀ e ∈ out, d ≤ e.2 := by
  induction h with
  | nil => simp
  | @cons x xs d sub rest _ _ ihsub ihrest =>
    intro e he
    rw [List.mem_cons, List.mem_append] at he
    obtain rfl | he | he := he
    · exact le_rfl
    · exact Nat.le_of_succ_le (ihsub e he)
    · exact ihrest e he

theorem Listing.congr (h : Listing kids xs d out) (hkids : ∀ x ∈ out.map Prod.fst, kids' x = kids x) :
    Listing kids' xs d out := by
  induction h with
  | nil d => exact .nil d
  | @cons x xs d sub rest _ _ ihsub ihrest =>
    simp only [List.map_cons, List.map_append, List.mem_cons, List.mem_append] at hkids
    have hx : kids' x = kids x := hkids x (Or.inl rfl)
    apply Listing.cons
    · rw [hx]
      exact ihsub fun y hy => hkids y (Or.inr (Or.inl hy))
    · exact ihrest fun y hy => hkids y (Or.inr (Or.inr hy))

theorem Listing.parent_before (h : Listing kids xs d out) {pre post : List (α × ℕ)} {y : α} {n : ℕ}
    (hout : out = pre ++ (y, n) :: post) : y ∈ xs ∨ ∃ p ∈ pre.map Prod.fst, y ∈ kids p := by
  induction h generalizing pre post with
  | nil => simp at hout
  | @cons x xs d sub rest _ _ ihsub ihrest =>
    cases pre with
    | nil =>
      obtain ⟨⟨rfl, -⟩, -⟩ := List.cons_eq_cons.mp hout |>.imp_left Prod.mk.inj
      exact Or.inl List.mem_cons_self
    | cons e pre =>
      obtain ⟨rfl, hsplit⟩ := List.cons_eq_cons.mp hout
      have hfrom : y ∈ xs ∨ (∃ p ∈ pre.map Prod.fst, y ∈ kids p) ∨ y ∈ kids x := by
        rcases List.append_eq_append_iff.mp hsplit with ⟨mid, rfl, hrest⟩ | ⟨mid, hsub, hmid⟩
        · refine (ihrest hrest).imp_right fun ⟨p, hp, hy⟩ => Or.inl ⟨p, ?_, hy⟩
          rw [List.map_append]
          exact List.mem_append_right _ hp
        · cases mid with
          | nil =>
            have hrest : rest = [] ++ (y, n) :: post := hmid.symm
            exact (ihrest hrest).imp_right fun ⟨p, hp, _⟩ => absurd hp List.not_mem_nil
          | cons e' mid =>
            obtain ⟨rfl, -⟩ := List.cons_eq_cons.mp hmid
            exact Or.inr ((ihsub hsub).symm)
      rw [List.map_cons]
      rcases hfrom with hy | ⟨p, hp, hy⟩ | hy
      · exact Or.inl (List.mem_cons_of_mem _ hy)
      · exact Or.inr ⟨p, List.mem_cons_of_mem _ hp, hy⟩
      · exact Or.inr ⟨x, List.mem_cons_self, hy⟩

theorem Listing.map_on {kids' : β → List β} (f : α → β) (h : Listing kids xs d out)
    (hf : ∀ x ∈ out.map Prod.fst, kids' (f x) = (kids x).map f) :
    Listing kids' (xs.map f) d (out.map fun e => (f e.1, e.2)) := by
  induction h with
  | nil d => exact .nil d
  | @cons x xs d sub rest _ _ ihsub ihrest =>
    simp only [List.map_cons, List.map_append, List.mem_cons, List.mem_append] at hf
    rw [List.map_cons, List.map_cons, List.map_append]
    apply Listing.cons
    · rw [hf x (Or.inl rfl)]
      exact ihsub fun y hy => hf y (Or.inr (Or.inl hy))
    · exact ihrest fun y hy => hf y (Or.inr (Or.inr hy))

end Listings

section Blocks

def IsBlock (d : ℕ) (b : List (β × ℕ)) : Prop := ∃ v t, b = (v, d) :: t ∧ ∀ e ∈ t, d < e.2

theorem takeWhile_deeper {d : ℕ} {t : List (β × ℕ)} {bs : List (List (β × ℕ))} (ht : ∀ e ∈ t, d < e.2)
    (hbs : ∀ b ∈ bs, IsBlock d b) : (t ++ bs.flatten).takeWhile (fun e => decide (d < e.2)) = t := by
  rw [List.takeWhile_append_of_pos fun e he => decide_eq_true (ht e he)]
  cases bs with
  | nil => simp
  | cons b bs =>
    obtain ⟨v, t', rfl, -⟩ := hbs b List.mem_cons_self
    simp

/-- A row of blocks can be taken apart in one way only. -/
theorem flatten_blocks_injective {d : ℕ} {bs bs' : List (List (β × ℕ))} (hbs : ∀ b ∈ bs, IsBlock d b)
    (hbs' : ∀ b ∈ bs', IsBlock d b) (h : bs.flatten = bs'.flatten) : bs = bs' := by
  induction bs generalizing bs' with
  | nil =>
    cases bs' with
    | nil => rfl
    | cons b' bs' =>
      obtain ⟨v, t, rfl, -⟩ := hbs' b' List.mem_cons_self
      simp at h
  | cons b bs ih =>
    obtain ⟨⟨v, t, rfl, ht⟩, htail⟩ := List.forall_mem_cons.mp hbs
    cases bs' with
    | nil => simp at h
    | cons b' bs' =>
      obtain ⟨⟨v', t', rfl, ht'⟩, htail'⟩ := List.forall_mem_cons.mp hbs'
      rw [List.flatten_cons, List.flatten_cons, List.cons_append, List.cons_append, List.cons.injEq] at h
      obtain ⟨hv, hrest⟩ := h
      have htake : t = t' := by rw [← takeWhile_deeper ht htail, hrest, takeWhile_deeper ht' htail']
      subst htake
      rw [hv, ih htail htail' (List.append_cancel_left hrest)]

end Blocks

section Shapes

variable {kids kids' : α → List α} (v : α → β)

def shown (out : List (α × ℕ)) : List (β × ℕ) := out.map fun e => (v e.1, e.2)

def IsShape (kids : α → List α) (shape : α → List (β × ℕ)) : Prop :=
  ∀ x, ∃ out, Listing kids [x] 0 out ∧ shape x = shown v out

def shiftBy (k : ℕ) (b : List (β × ℕ)) : List (β × ℕ) := b.map fun e => (e.1, e.2 + k)

variable {v} {shape : α → List (β × ℕ)}

theorem shiftBy_injective (k : ℕ) : Function.Injective (shiftBy k : List (β × ℕ) → List (β × ℕ)) := by
  apply List.map_injective_iff.mpr
  intro a b h
  obtain ⟨h1, h2⟩ := Prod.mk.inj h
  exact Prod.ext h1 (Nat.add_right_cancel h2)

theorem shown_shift (k : ℕ) (out : List (α × ℕ)) :
    shown v (out.map fun e => (e.1, e.2 + k)) = shiftBy k (shown v out) := by
  rw [shown, shown, shiftBy, List.map_map, List.map_map]
  rfl

theorem Listing.shown_eq (hshape : IsShape v kids shape) {xs : List α} {d : ℕ} {out : List (α × ℕ)}
    (h : Listing kids xs d out) : shown v out = (xs.map fun x => shiftBy d (shape x)).flatten := by
  induction xs generalizing out with
  | nil =>
    cases h
    rfl
  | cons x xs ih =>
    cases h with
    | cons hsub hrest =>
      rename_i sub rest
      obtain ⟨out', hout', hx⟩ := hshape x
      have hone : Listing kids [x] d ((x, d) :: (sub ++ [])) := .cons hsub (.nil d)
      have heq := (hout'.shift d).unique (Nat.zero_add d ▸ hone)
      rw [List.map_cons, List.flatten_cons, hx, ← shown_shift, heq, ← ih hrest]
      simp [shown]

theorem IsShape.cons (hshape : IsShape v kids shape) (x : α) :
    shape x = (v x, 0) :: ((kids x).map fun c => shiftBy 1 (shape c)).flatten := by
  obtain ⟨out, hout, hx⟩ := hshape x
  cases hout with
  | cons hsub hnil =>
    cases hnil
    rw [hx, ← hsub.shown_eq hshape]
    simp [shown]

theorem IsShape.isBlock (hshape : IsShape v kids shape) (d : ℕ) (x : α) :
    IsBlock d (shiftBy d (shape x)) := by
  obtain ⟨out, hout, hx⟩ := hshape x
  cases hout with
  | cons hsub hnil =>
    cases hnil
    rename_i sub
    refine ⟨v x, shiftBy d (shown v sub), by rw [hx]; simp [shown, shiftBy], ?_⟩
    intro e he
    obtain ⟨e', he', rfl⟩ := List.mem_map.mp he
    obtain ⟨e'', he'', rfl⟩ := List.mem_map.mp he'
    have hdeep := hsub.depth_le e'' he''
    dsimp only
    omega

/-- Reordered siblings that show the same trees in a row leave every listing as it is. -/
theorem Listing.shown_reordered (hshape : IsShape v kids shape) {xs : List α} {d : ℕ} {out : List (α × ℕ)}
    (h : Listing kids' xs d out) (hkids : ∀ x ∈ out.map Prod.fst, (kids' x).map shape = (kids x).map shape) :
    shown v out = (xs.map fun x => shiftBy d (shape x)).flatten := by
  induction h with
  | nil => rfl
  | @cons x xs d sub rest _ _ ihsub ihrest =>
    simp only [List.map_cons, List.map_append, List.mem_cons, List.mem_append] at hkids
    have hx : (kids' x).map (fun c => shiftBy (d + 1) (shape c)) =
        (kids x).map fun c => shiftBy (d + 1) (shape c) := by
      have hmap := congrArg (List.map (shiftBy (d + 1))) (hkids x (Or.inl rfl))
      rwa [List.map_map, List.map_map] at hmap
    have hsub := ihsub fun y hy => hkids y (Or.inr (Or.inl hy))
    have hrest := ihrest fun y hy => hkids y (Or.inr (Or.inr hy))
    rw [hx] at hsub
    have htree : shiftBy d (shape x) = (v x, d) ::
        ((kids x).map fun c => shiftBy (d + 1) (shape c)).flatten := by
      rw [hshape.cons x]
      simp [shiftBy, List.map_flatten, Function.comp_def, Nat.add_comm, Nat.add_left_comm]
    rw [List.map_cons, List.flatten_cons, htree, ← hsub, ← hrest]
    simp [shown]

theorem IsShape.exists_listing (hshape : IsShape v kids shape) (xs : List α) (d : ℕ) :
    ∃ out, Listing kids xs d out := by
  induction xs with
  | nil => exact ⟨[], .nil d⟩
  | cons x xs ih =>
    obtain ⟨rest, hrest⟩ := ih
    obtain ⟨out, hout, -⟩ := hshape x
    have hshift := hout.shift d
    rw [Nat.zero_add] at hshift
    generalize out.map (fun e => (e.1, e.2 + d)) = shifted at hshift
    cases hshift with
    | cons hsub _ => exact ⟨_, .cons hsub hrest⟩

/-- If only the children of `p` are reordered and a listing still shows the same, then the children
show the same trees in a row. -/
theorem Listing.shown_reorders (hshape : IsShape v kids shape) {p : α} (hkids : ∀ x, x ≠ p → kids' x = kids x)
    {xs : List α} {d : ℕ} {out out' : List (α × ℕ)} (h : Listing kids xs d out) (h' : Listing kids' xs d out')
    (hperm : ∀ c ∈ kids' p, c ∈ kids p) (hnd : (out.map Prod.fst).Nodup) (hp : p ∈ out.map Prod.fst)
    (hshown : shown v out' = shown v out) : (kids' p).map shape = (kids p).map shape := by
  have hsame : ∀ {ys : List α} {n : ℕ} {o o' : List (α × ℕ)}, Listing kids ys n o → p ∉ o.map Prod.fst →
      Listing kids' ys n o' → o' = o := by
    intro ys n o o' ho hnot ho'
    refine ho'.unique (ho.congr fun x hx => hkids x ?_)
    rintro rfl
    exact hnot hx
  induction h generalizing out' with
  | nil => cases hp
  | @cons x xs d sub rest hsub hrest ihsub ihrest =>
    cases h' with
    | cons hsub' hrest' =>
      rename_i sub' rest'
      simp only [List.map_cons, List.map_append, List.nodup_cons, List.mem_append, not_or, List.nodup_append',
        List.mem_cons] at hnd hp
      obtain ⟨⟨hxsub, hxrest⟩, hndsub, hndrest, hdisjoint⟩ := hnd
      simp only [shown, List.map_cons, List.map_append, List.cons.injEq, true_and] at hshown
      by_cases hx : x = p
      · subst hx
        obtain rfl := hsame hrest hxrest hrest'
        obtain ⟨low, hlow⟩ := hshape.exists_listing (kids' x) (d + 1)
        have hxlow : x ∉ low.map Prod.fst := by
          intro hxlow
          obtain ⟨c, hc, hbelow⟩ := (hlow.mem_iff x).mp hxlow
          exact hxsub ((hsub.mem_iff x).mpr ⟨c, hperm c hc, hbelow⟩)
        obtain rfl := hsame hlow hxlow hsub'
        have hblocks := List.append_cancel_right hshown
        rw [← shown, ← shown, hlow.shown_eq hshape, hsub.shown_eq hshape] at hblocks
        have hmaps := flatten_blocks_injective (by simpa using fun c _ => hshape.isBlock (d + 1) c)
          (by simpa using fun c _ => hshape.isBlock (d + 1) c) hblocks
        apply List.map_injective_iff.mpr (shiftBy_injective (d + 1))
        rw [List.map_map, List.map_map]
        exact hmaps
      · rw [hkids x hx] at hsub'
        obtain rfl | hp | hp := hp
        · exact absurd rfl hx
        · have hprest : p ∉ rest.map Prod.fst := fun hp' => hdisjoint hp hp'
          obtain rfl := hsame hrest hprest hrest'
          exact ihsub hsub' hndsub hp (List.append_cancel_right hshown)
        · have hpsub : p ∉ sub.map Prod.fst := fun hp' => hdisjoint hp' hp
          obtain rfl := hsame hsub hpsub hsub'
          exact ihrest hrest' hndrest hp (List.append_cancel_left hshown)

end Shapes

end OpenOutliner.Foundations
