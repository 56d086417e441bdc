import OpenOutliner.Crdt.SiblingLists
import OpenOutliner.Foundations.OrderedForest

namespace OpenOutliner

open Foundations Relation

def LiveBelow (doc : Doc) (rootId start x : JsString) : Prop :=
  (doc.moveOf x).isSome = true ∧ x ∉ doc.effectiveTree.deleted ∧
    TransGen (EffectiveEdge rootId doc.effectiveTree) x start

def Uncollapsed (doc : Doc) (rootId start : JsString) (isCollapsed : JsString → Bool) (x : JsString) : Prop :=
  ∀ a, TransGen (EffectiveEdge rootId doc.effectiveTree) x a →
    TransGen (EffectiveEdge rootId doc.effectiveTree) a start →
    isCollapsed a = false

def Doc.Precedes (doc : Doc) (a b : JsString) : Prop :=
  ∃ m ∈ doc.moveOf a, ∃ n ∈ doc.moveOf b, m.rank < n.rank ∨ m.rank = n.rank ∧ a < b

/-- Each list has the live children of an item, by rank and then by id. -/
structure InOrder (doc : Doc) (rootId : JsString) (kids : JsString → List JsString) : Prop where
  mem : ∀ p x, x ∈ kids p ↔ EffectiveEdge rootId doc.effectiveTree x p ∧ x ∉ doc.effectiveTree.deleted
  sorted : ∀ p, (kids p).Pairwise doc.Precedes

/-- The traversal by recursion: the points with their depths, where a collapsed item shows no children. -/
def recursiveRows (kids : JsString → List JsString) (isCollapsed : JsString → Bool) (fuel : ℕ)
    (start : JsString) :
    Option (List (JsString × ℕ)) :=
  preorder (fun x => if isCollapsed x then [] else kids x) fuel 0 (kids start)

section Order

variable {doc : Doc} {a b x : JsString} {xs ys : List JsString}

theorem precedes_asymm (h : doc.Precedes a b) : ¬ doc.Precedes b a := by
  obtain ⟨m, hm, n, hn, hlt⟩ := h
  rintro ⟨n', hn', m', hm', hgt⟩
  obtain rfl := Option.mem_unique hm hm'
  obtain rfl := Option.mem_unique hn hn'
  rcases hlt with hlt | ⟨heq, hid⟩
  · rcases hgt with hgt | ⟨heq, -⟩
    · exact lt_asymm hlt hgt
    · exact absurd heq hlt.ne'
  · rcases hgt with hgt | ⟨-, hid'⟩
    · exact absurd heq hgt.ne'
    · exact lt_asymm hid hid'

theorem ordered_unique (hx : xs.Pairwise doc.Precedes) (hy : ys.Pairwise doc.Precedes)
    (hmem : ∀ x, x ∈ xs ↔ x ∈ ys) :
    xs = ys := by
  have hnodup : ∀ {zs : List JsString}, zs.Pairwise doc.Precedes → zs.Nodup := by
    intro zs hzs
    apply hzs.imp
    rintro a b hab rfl
    exact precedes_asymm hab hab
  have hperm : xs.Perm ys := (List.perm_ext_iff_of_nodup (hnodup hx) (hnodup hy)).mpr hmem
  apply hperm.eq_of_pairwise _ hx hy
  intro a b _ _ hab hba
  exact absurd hba (precedes_asymm hab)

theorem childIds_ordered (doc : Doc) (p : JsString) : (doc.childIds p).Pairwise doc.Precedes := by
  have hsorted := (siblingKeys_pairwise doc p).and (List.pairwise_map.mp (siblingKeys_nodup doc p))
  rw [← siblingKeys_ids, List.pairwise_map]
  apply hsorted.imp_of_mem
  rintro ⟨a, r⟩ ⟨b, r'⟩ ha hb ⟨hle, hne⟩
  obtain ⟨-, m, hm, rfl⟩ := mem_siblingKeys.mp ha
  obtain ⟨-, n, hn, rfl⟩ := mem_siblingKeys.mp hb
  refine ⟨m, hm, n, hn, ?_⟩
  rcases (compareOrder_le_iff _ _).mp hle with hlt | ⟨heq, hid⟩
  · exact Or.inl hlt
  · exact Or.inr ⟨heq, lt_of_le_of_ne hid hne⟩

end Order

section Children

variable {doc : Doc} {rootId p x y : JsString} (hget : doc.getRootId = some rootId)

theorem InOrder.unique {kids kids' : JsString → List JsString} (h : InOrder doc rootId kids)
    (h' : InOrder doc rootId kids') : kids = kids' := by
  funext p
  apply ordered_unique (h.sorted p) (h'.sorted p)
  intro x
  rw [h.mem, h'.mem]

theorem shown_of_childOf {isCollapsed : JsString → Bool} (h : ChildOf (doc.shownIds isCollapsed) x p) :
    isCollapsed p = false ∧ x ∈ doc.childIds p := by
  unfold ChildOf Doc.shownIds at h
  split at h
  · cases h
  · rename_i hc
    exact ⟨by simpa using hc, h⟩

theorem childOf_shown {isCollapsed : JsString → Bool} (hc : isCollapsed p = false) (h : x ∈ doc.childIds p) :
    ChildOf (doc.shownIds isCollapsed) x p := by
  unfold ChildOf Doc.shownIds
  rwa [hc]

include hget

theorem childIds_inOrder : InOrder doc rootId doc.childIds :=
  ⟨fun _ _ => mem_childIds hget, childIds_ordered doc⟩

theorem shown_below_iff (isCollapsed : JsString → Bool) (start : JsString) :
    (∃ y ∈ doc.childIds start, ReflTransGen (ChildOf (doc.shownIds isCollapsed)) x y) ↔
      LiveBelow doc rootId start x ∧ Uncollapsed doc rootId start isCollapsed x := by
  have hspec := Doc.rooted_spec hget
  constructor
  · rintro ⟨y, hy, hxy⟩
    induction hxy using ReflTransGen.head_induction_on with
    | refl =>
      obtain ⟨hedge, hlive⟩ := (mem_childIds hget).mp hy
      refine ⟨⟨mem_ids_iff.mp (hspec.edge_source hedge), hlive, .single hedge⟩, ?_⟩
      intro a hya hastart
      obtain ⟨w, hyw, hwa⟩ := TransGen.head'_iff.mp hya
      rw [effectiveEdge_unique hyw hedge] at hwa
      exact absurd (TransGen.trans_right hwa hastart) (hspec.not_cyclic start)
    | @head x m hxm _ ih =>
      obtain ⟨hm, hx⟩ := shown_of_childOf hxm
      obtain ⟨hedge, hlive⟩ := (mem_childIds hget).mp hx
      obtain ⟨⟨-, -, hbelow⟩, hopen⟩ := ih
      refine ⟨⟨mem_ids_iff.mp (hspec.edge_source hedge), hlive, .head hedge hbelow⟩, ?_⟩
      intro a hxa hastart
      obtain ⟨w, hxw, hwa⟩ := TransGen.head'_iff.mp hxa
      rw [effectiveEdge_unique hxw hedge] at hwa
      rcases reflTransGen_iff_eq_or_transGen.mp hwa with rfl | hma
      · exact hm
      · exact hopen a hma hastart
  · rintro ⟨⟨-, hlive, hbelow⟩, hopen⟩
    induction hbelow using TransGen.head_induction_on with
    | single hedge => exact ⟨_, (mem_childIds hget).mpr ⟨hedge, hlive⟩, .refl⟩
    | @head x m hedge hbelow ih =>
      have hchild : x ∈ doc.childIds m := (mem_childIds hget).mpr ⟨hedge, hlive⟩
      obtain ⟨y, hy, hmy⟩ :=
        ih (fun a hma hastart => hopen a (.head hedge hma) hastart) (hspec.parent_live hedge hlive)
      exact ⟨y, hy, .head (childOf_shown (hopen m (.single hedge) hbelow) hchild) hmy⟩

end Children

theorem listing_steps {kids : JsString → List JsString} (r : JsString → JsString → Prop)
    (hkids : ∀ c p, c ∈ kids p → r c p) (start : JsString) {xs : List JsString} {d : ℕ}
    {out : List (JsString × ℕ)} (h : Listing kids xs d out) (hxs : ∀ x ∈ xs, StepsTo r start (d + 1) x) :
    ∀ e ∈ out, StepsTo r start (e.2 + 1) e.1 := by
  induction h with
  | nil => simp
  | @cons x xs d sub rest _ _ ihsub ihrest =>
    obtain ⟨hx, hrest⟩ := List.forall_mem_cons.mp hxs
    intro e he
    rw [List.mem_cons, List.mem_append] at he
    obtain rfl | he | he := he
    · exact hx
    · exact ihsub (fun c hc => .step (hkids c x hc) hx) e he
    · exact ihrest hrest e he

/-- Both loops end, and list the live items below the start that no collapsed item hides, each once, as the
recursive traversal does. -/
structure RowsInPreorder (doc : Doc) (rootId start : JsString) (isCollapsed : JsString → Bool) : Prop where
  rows_end : ∀ fuel > doc.allNodes.length,
    doc.visibleRowsWithin fuel start isCollapsed = some (doc.visibleRows start isCollapsed)
  flat_end : ∀ fuel > doc.allNodes.length,
    doc.flattenVisibleWithin fuel start isCollapsed = some (doc.flattenVisible start isCollapsed)
  once : ((doc.visibleRows start isCollapsed).map VisibleRow.id).Nodup
  mem : ∀ x, x ∈ (doc.visibleRows start isCollapsed).map VisibleRow.id ↔
    LiveBelow doc rootId start x ∧ Uncollapsed doc rootId start isCollapsed x
  ordered : ∃ kids, InOrder doc rootId kids
  recursive : ∀ kids, InOrder doc rootId kids → ∀ fuel > (doc.visibleRows start isCollapsed).length,
    recursiveRows kids isCollapsed fuel start =
    some ((doc.visibleRows start isCollapsed).map fun row => (row.id, row.depth))
  depth : ∀ row ∈ doc.visibleRows start isCollapsed,
    StepsTo (EffectiveEdge rootId doc.effectiveTree) start (row.depth + 1) row.id
  recovered : ∀ row ∈ doc.visibleRows start isCollapsed,
    row.recovered = decide (row.id ∈ doc.effectiveTree.recovered)
  flat : doc.flattenVisible start isCollapsed = (doc.visibleRows start isCollapsed).map VisibleRow.id

theorem visibleRows_preorder {doc : Doc} {rootId : JsString} (hget : doc.getRootId = some rootId)
    (start : JsString) (isCollapsed : JsString → Bool) : RowsInPreorder doc rootId start isCollapsed := by
  obtain ⟨hlisting, hends⟩ := doc.visibleRows_listing isCollapsed hget start
  have hids : (doc.visibleRows start isCollapsed).map VisibleRow.id =
      ((doc.visibleRows start isCollapsed).map fun row => (row.id, row.depth)).map Prod.fst := by
    rw [List.map_map]
    rfl
  have hkids : ∀ c p, c ∈ doc.shownIds isCollapsed p → EffectiveEdge rootId doc.effectiveTree c p :=
    fun c p hc =>
    Doc.childIds_edge hget (Doc.shownIds_childOf isCollapsed hc)
  constructor
  case rows_end => exact hends
  case flat_end =>
    intro fuel hfuel
    rw [Doc.flattenVisibleWithin_eq, hends fuel hfuel, Option.map_some, Doc.flattenVisible_eq]
  case once =>
    rw [hids]
    apply hlisting.nodup (fun c p h => Doc.childIds_up hget c p (Doc.shownIds_childOf isCollapsed h))
      (Doc.shownIds_nodup isCollapsed) (Doc.shownIds_wellFounded isCollapsed hget)
        (doc.getChildren_ids_nodup start)
    intro x hx y hy hxy
    apply siblings_apart (Doc.childIds_up hget) (Doc.childIds_wellFounded hget) hx hy
    exact hxy.lift id fun _ _ h => Doc.shownIds_childOf isCollapsed h
  case mem =>
    intro x
    rw [hids, hlisting.mem_iff, shown_below_iff hget]
  case ordered => exact ⟨_, childIds_inOrder hget⟩
  case recursive =>
    intro kids hord fuel hfuel
    rw [hord.unique (childIds_inOrder hget)]
    apply preorder_eq hlisting
    rwa [List.length_map]
  case depth =>
    intro row hrow
    have hsteps := listing_steps (EffectiveEdge rootId doc.effectiveTree) hkids start hlisting fun x hx =>
      .last (Doc.childIds_edge hget hx)
    exact hsteps _ (List.mem_map_of_mem hrow)
  case recovered =>
    intro row hrow
    exact visibleRows_recovered hrow
  case flat => exact Doc.flattenVisible_eq isCollapsed start

theorem visibleRows_preorder_tangled :
    RowsInPreorder tangledDoc (js ['r']) (js ['a']) fun x => decide (x = js ['b']) :=
  visibleRows_preorder rfl (js ['a']) fun x => decide (x = js ['b'])

end OpenOutliner
