import OpenOutliner.Crdt.CommandWrites
import OpenOutliner.Crdt.Reordering
import OpenOutliner.Crdt.ReplayEffect
import OpenOutliner.Shared.Rehoming

namespace OpenOutliner

open Foundations Relation

def Doc.Alive (doc : Doc) (x : JsString) : Prop :=
  (doc.moveOf x).isSome = true ∧ x ∉ doc.effectiveTree.deleted

/-- The target has the text and the children of `id`, which alone is gone. -/
structure MergeConserves (doc doc' : Doc) (rootId id targetId : JsString) : Prop where
  text : (doc'.contentOf targetId).getD [] = (doc.contentOf targetId).getD [] ++ (doc.contentOf id).getD []
  texts : ∀ y, y ≠ targetId → (doc'.contentOf y).getD [] = (doc.contentOf y).getD []
  live : ∀ y, doc'.Alive y ↔ doc.Alive y ∧ y ≠ id
  children : doc'.childIds targetId = (doc.childIds targetId).filter (· ≠ id) ++ doc.childIds id
  subtrees : ∀ c ∈ doc.childIds id, ∀ y, LiveBelow doc' rootId c y ↔ LiveBelow doc rootId c y

structure Adopted (doc doc' : Doc) (targetId : JsString) (lastRank : Option JsString)
    (moved : List JsString) : Prop where
  rootId : doc'.rootId = doc.rootId
  schemaVersion : doc'.schemaVersion = doc.schemaVersion
  others : ∀ y, y ∉ moved → doc'.items.get y = doc.items.get y
  placed : ∀ c ∈ moved, ∃ r placed, doc.registersOf c = some r ∧ doc'.registersOf c = some (placed, r.2) ∧
    placed.parentId = targetId
  contents : ∀ y, doc'.contentOf y = doc.contentOf y
  above : ∀ c ∈ moved, ∀ m ∈ doc'.moveOf c, ∀ r ∈ lastRank, r < m.rank
  increasing : moved.Pairwise fun a b => ∀ m ∈ doc'.moveOf a, ∀ n ∈ doc'.moveOf b, m.rank < n.rank

section Placements

variable {doc : Doc} {rootId x y q : JsString} {placed : MoveRegister}

theorem rawUnder_iff : RawUnder doc.treeNodes y q ↔ ∃ r, doc.registersOf y = some r ∧ r.1.parentId = q := by
  constructor
  · rintro ⟨n, hn, rfl, rfl⟩
    obtain ⟨r, hr, he⟩ := treeNode_registers hn
    exact ⟨r, hr, by rw [he]⟩
  · rintro ⟨r, hr, rfl⟩
    exact ⟨_, mem_treeNodes_of_registers hr, rfl, rfl⟩

theorem flagged_iff_registers : FlaggedDeleted doc.treeNodes y ↔
    ∃ r, doc.registersOf y = some r ∧ r.2.1 = true := by
  constructor
  · rintro ⟨n, hn, rfl, hflag⟩
    obtain ⟨r, hr, he⟩ := treeNode_registers hn
    rw [he] at hflag
    exact ⟨r, hr, hflag⟩
  · rintro ⟨r, hr, hflag⟩
    exact ⟨_, mem_treeNodes_of_registers hr, rfl, hflag⟩

theorem treeNode_iff_registers {n : TreeNode} : n ∈ doc.treeNodes ↔
    ∃ r, doc.registersOf n.id = some r ∧ n = ⟨n.id, r.1.parentId, r.2.1⟩ := by
  constructor
  · exact treeNode_registers
  · rintro ⟨r, hr, he⟩
    rw [he]
    exact mem_treeNodes_of_registers hr

theorem writeMove_contentOf_placed (hx : (doc.items.get x).isSome = true) :
    (doc.writeMove x placed).contentOf y = doc.contentOf y := by
  by_cases hy : y = x
  · obtain ⟨node, hget⟩ := Option.isSome_iff_exists.mp hx
    unfold Doc.writeMove
    split_ifs
    · rfl
    · rw [hy, Doc.contentOf, Doc.contentOf, Doc.setNode_get, if_pos rfl, hget]
      rfl
  · exact Doc.writeMove_contentOf placed hy

end Placements

section Adopting

variable {lib : FractionalIndexing} {Key : JsString → Prop} (hlib : lib.Lawful Key) {actor : Actor}
  {targetId : JsString}

include hlib

theorem adoptChildren_adopted {children : List OutlineNode} {doc doc' : Doc} {reading reading' : ℕ}
    {lastRank : Option JsString} (hlast : ∀ a ∈ lastRank, Key a) (hnd : (children.map OutlineNode.id).Nodup)
    (hroot : ∀ c ∈ children, doc.rootId ≠ some c.id) (hmove : ∀ c ∈ children, (doc.moveOf c.id).isSome = true)
    (hrun : adoptChildren lib targetId actor reading lastRank children doc = (.ok reading', doc')) :
    Adopted doc doc' targetId lastRank (children.map OutlineNode.id) := by
  induction children generalizing doc reading lastRank with
  | nil =>
    cases hrun
    exact ⟨rfl, rfl, fun _ _ => rfl, by simp, fun _ => rfl, by simp, .nil⟩
  | cons child rest ih =>
    rw [List.map_cons, List.nodup_cons] at hnd
    obtain ⟨hne, hroot⟩ := List.forall_mem_cons.mp hroot
    obtain ⟨hsome, hmove⟩ := List.forall_mem_cons.mp hmove
    obtain ⟨childMove, hchild⟩ := Option.isSome_iff_exists.mp hsome
    obtain ⟨k, hk, hkey, hbetween⟩ := rankBetween_ok hlib (bounds_above hlast) child.id
    unfold adoptChildren at hrun
    rw [hchild] at hrun
    dsimp only at hrun
    rw [hk] at hrun
    dsimp only at hrun
    generalize hplaced : buildMove targetId k (some childMove.hlc) (actor.ctx reading) = placed at hrun
    have hparent : placed.parentId = targetId := by rw [← hplaced]; rfl
    have hrank : placed.rank = k := by rw [← hplaced]; rfl
    have hother : ∀ c ∈ rest, c.id ≠ child.id := by
      rintro c hc he
      exact hnd.1 (he ▸ List.mem_map_of_mem hc)
    have hadopted :=
      ih (by rintro a ⟨⟩; exact hkey) hnd.2 (fun c hc => by rw [Doc.writeMove_rootId]; exact hroot c hc)
      (fun c hc => by rw [writeMove_moveOf_other _ (hother c hc)]; exact hmove c hc) hrun
    have hself : doc'.moveOf child.id = some placed := by
      rw [Doc.moveOf, hadopted.others _ hnd.1]
      exact writeMove_moveOf_self hne placed
    rw [List.map_cons]
    refine ⟨?_, ?_, fun y hy => ?_, fun c hc => ?_, fun y => ?_, fun c hc m hm r hr => ?_,
      List.pairwise_cons.mpr ⟨?_, ?_⟩⟩
    · rw [hadopted.rootId, Doc.writeMove_rootId]
    · rw [hadopted.schemaVersion, Doc.writeMove_schemaVersion]
    · rw [List.mem_cons, not_or] at hy
      rw [hadopted.others y hy.2, writeMove_get hne, if_neg hy.1]
    · rcases List.mem_cons.mp hc with rfl | hc
      · obtain ⟨r, hr⟩ := Option.ne_none_iff_exists'.mp (registersOf_ne_none.mpr hsome)
        refine ⟨r, placed, hr, ?_, hparent⟩
        rw [registersOf_ext hadopted.schemaVersion (by rw [hadopted.others _ hnd.1])]
        exact registersOf_writeMove placed hr fun he => absurd he hne
      · obtain ⟨r, placed', hr, hr', hp⟩ := hadopted.placed c hc
        refine ⟨r, placed', ?_, hr', hp⟩
        have hcne : c ≠ child.id := fun he => hnd.1 (he ▸ hc)
        rw [← hr]
        exact (registersOf_ext (doc.writeMove_schemaVersion _ _)
          (by rw [writeMove_get hne, if_neg hcne])).symm
    · rw [hadopted.contents, writeMove_contentOf_placed (isSome_of_moveOf hchild)]
    · rcases List.mem_cons.mp hc with rfl | hc
      · rw [hself] at hm
        obtain rfl := Option.some.inj hm
        rw [hrank]
        exact hbetween.1 r hr
      · exact (hbetween.1 r hr).trans (hadopted.above c hc m hm k rfl)
    · intro c hc m hm n hn
      rw [hself] at hm
      obtain rfl := Option.some.inj hm
      rw [hrank]
      exact hadopted.above c hc n hn k rfl
    · exact hadopted.increasing

end Adopting

namespace Adopted

variable {doc doc' : Doc} {targetId rootId id x y q : JsString} {lastRank : Option JsString}
  {moved : List JsString} (h : Adopted doc doc' targetId lastRank moved)

include h

theorem moveOf_other (hy : y ∉ moved) : doc'.moveOf y = doc.moveOf y := by
  rw [Doc.moveOf, h.others y hy]
  rfl

theorem registers_other (hy : y ∉ moved) : doc'.registersOf y = doc.registersOf y :=
  registersOf_ext h.schemaVersion (by rw [h.others y hy])

theorem flags : (doc'.registersOf y).map Prod.snd = (doc.registersOf y).map Prod.snd := by
  by_cases hy : y ∈ moved
  · obtain ⟨r, placed, hr, hr', -⟩ := h.placed y hy
    rw [hr, hr']
    rfl
  · rw [h.registers_other hy]

theorem listed : (doc'.moveOf y).isSome = (doc.moveOf y).isSome := by
  have hsome : ∀ d : Doc, (d.moveOf y).isSome = ((d.registersOf y).map Prod.snd).isSome := by
    intro d
    rw [moveOf_eq, Option.isSome_map, Option.isSome_map]
  rw [hsome, hsome, h.flags]

theorem rehomed : Rehomed doc.treeNodes doc'.treeNodes moved targetId := by
  refine ⟨doc.treeNodes_nodup, doc'.treeNodes_nodup, fun y => ?_, fun n hn => ?_, fun n hn hmoved => ?_,
    fun y => ?_⟩
  · rw [mem_ids_iff, mem_ids_iff, h.listed]
  · rw [treeNode_iff_registers, treeNode_iff_registers, h.registers_other hn]
  · obtain ⟨r, hr, he⟩ := treeNode_registers hn
    obtain ⟨r', placed, -, hr', hparent⟩ := h.placed n.id hmoved
    rw [hr] at hr'
    obtain rfl := Option.some.inj hr'
    rw [he]
    exact hparent
  · have hflag : ∀ d : Doc, FlaggedDeleted d.treeNodes y ↔
        ∃ f, (d.registersOf y).map Prod.snd = some f ∧ f.1 = true := by
      intro d
      rw [flagged_iff_registers]
      simp only [Option.map_eq_some_iff]
      constructor
      · rintro ⟨r, hr, hf⟩
        exact ⟨r.2, ⟨r, hr, rfl⟩, hf⟩
      · rintro ⟨f, ⟨r, hr, rfl⟩, hf⟩
        exact ⟨r, hr, hf⟩
    rw [hflag, hflag, h.flags]

end Adopted

section Lists

variable {doc doc' : Doc} {targetId rootId id x y z q : JsString} {lastRank : Option JsString}
  (h : Adopted doc doc' targetId lastRank (doc.childIds id)) (hroot : doc.rootId = some rootId)
  (hcan : CanRehome doc.treeNodes rootId (doc.childIds id) id targetId)
  (hsource : id ∉ doc.effectiveTree.deleted) (htarget : targetId ∉ doc.effectiveTree.deleted)
  (happart : ¬ ReflTransGen (EffectiveEdge rootId doc.effectiveTree) targetId id)

include happart in
theorem target_apart : targetId ≠ id := by
  rintro rfl
  exact happart .refl

include h hroot

theorem adopted_get : doc'.getRootId = some rootId := getRootId_eq (h.rootId.trans hroot)

include hcan

theorem adopted_edge : EffectiveEdge rootId doc'.effectiveTree y z ↔
    (if y ∈ doc.childIds id then z = targetId else EffectiveEdge rootId doc.effectiveTree y z) :=
  h.rehomed.edge_iff hcan (Doc.rooted_spec (getRootId_eq hroot)) (Doc.rooted_spec (adopted_get h hroot))

include hsource htarget happart

theorem adopted_deleted : doc'.effectiveTree.deleted = doc.effectiveTree.deleted :=
  h.rehomed.deleted_eq hcan (Doc.rooted_spec (getRootId_eq hroot))
    (Doc.rooted_spec (adopted_get h hroot)) happart
    hsource htarget

theorem adopted_list (hlast : lastRank = (doc.getChildren targetId).getLast?.map OutlineNode.rank) :
    doc'.childIds targetId = doc.childIds targetId ++ doc.childIds id := by
  have hget := getRootId_eq hroot
  have hne := target_apart happart
  have hkept : ∀ {y}, y ∈ doc.childIds targetId → y ∉ doc.childIds id := fun hy hy' =>
    hne (childIds_parent_unique hget hy hy')
  have hold : (doc.childIds targetId).Pairwise doc'.Precedes := by
    apply (childIds_ordered doc targetId).imp_of_mem
    intro a b ha hb hab
    exact precedes_congr (h.moveOf_other (hkept ha)) (h.moveOf_other (hkept hb)) hab
  have hnew : ∀ c ∈ doc.childIds id, ∃ m, doc'.moveOf c = some m := by
    intro c hc
    obtain ⟨r, placed, -, hr, -⟩ := h.placed c hc
    exact ⟨placed, by rw [moveOf_eq, hr]; rfl⟩
  apply ordered_unique (childIds_ordered doc' targetId)
  · refine List.pairwise_append.mpr ⟨hold, ?_, fun y hy c hc => ?_⟩
    · apply h.increasing.imp_of_mem
      intro a b ha hb hab
      obtain ⟨m, hm⟩ := hnew a ha
      obtain ⟨n, hn⟩ := hnew b hb
      exact ⟨m, hm, n, hn, Or.inl (hab m hm n hn)⟩
    · obtain ⟨n, hn⟩ := hnew c hc
      obtain ⟨i, hi⟩ := List.mem_iff_getElem?.mp hy
      obtain ⟨m, hm, hkey⟩ := siblingKeys_at hi
      refine ⟨m, (h.moveOf_other (hkept hy)).trans hm, n, hn, Or.inl ?_⟩
      apply after_last (k := n.rank) _ _ (List.mem_of_getElem? hkey)
      rw [← hlast]
      exact ⟨h.above c hc n hn, by simp⟩
  · intro y
    rw [mem_childIds (adopted_get h hroot), adopted_deleted h hroot hcan hsource htarget happart,
      adopted_edge h hroot hcan, List.mem_append]
    split_ifs with hy
    · rw [and_iff_right rfl]
      exact iff_of_true ((mem_childIds hget).mp hy).2 (Or.inr hy)
    · rw [or_iff_left hy, mem_childIds hget]

theorem adopted_nothing_below (hy : y ∉ doc'.effectiveTree.deleted)
    (hyid : ReflTransGen (EffectiveEdge rootId doc'.effectiveTree) y id) : y = id := by
  have hspec' := Doc.rooted_spec (adopted_get h hroot)
  induction hyid using ReflTransGen.head_induction_on with
  | refl => rfl
  | @head y w hedge _ ih =>
    obtain rfl := ih (hspec'.parent_live hedge hy)
    rw [adopted_deleted h hroot hcan hsource htarget happart] at hy
    rw [adopted_edge h hroot hcan] at hedge
    split_ifs at hedge with hmoved
    · exact absurd hedge.symm (target_apart happart)
    · exact absurd ((mem_childIds (getRootId_eq hroot)).mpr ⟨hedge, hy⟩) hmoved

end Lists

section Burial

variable {doc : Doc} {rootId id token y q : JsString} {del : DeletedRegister}

theorem writeDeleted_get (hy : y ≠ id) : (doc.writeDeleted id del token).items.get y = doc.items.get y := by
  unfold Doc.writeDeleted
  split_ifs
  · rfl
  · rw [Doc.updateNode_get, if_neg hy]
  · rw [Doc.updateNode_get, if_neg hy]

theorem writeDeleted_contentOf : (doc.writeDeleted id del token).contentOf y = doc.contentOf y := by
  by_cases hy : y = id
  · have hkeeps : ∀ f : Node → Node, (∀ node, (f node).content = node.content) →
        (doc.updateNode id f).contentOf y = doc.contentOf y := by
      intro f hf
      rw [Doc.contentOf, Doc.contentOf, Doc.updateNode_get, if_pos hy]
      cases doc.items.get y with
      | none => rfl
      | some node => exact hf node
    unfold Doc.writeDeleted
    split_ifs
    · rfl
    · apply hkeeps
      intro node
      unfold Doc.writeRecords
      split <;> rfl
    · exact hkeeps _ fun _ => rfl
  · rw [Doc.contentOf, writeDeleted_get hy]
    rfl

variable (hroot : doc.rootId = some rootId) (hid : id ≠ rootId)
  (hsome : (doc.moveOf id).isSome = true) (hfresh : FreshToken doc id token) (hdel : del.isDeleted = true)

include hroot hid hsome hfresh hdel

theorem writeDeleted_tombstoned : Tombstoned doc.treeNodes (doc.writeDeleted id del token).treeNodes id := by
  obtain ⟨r, hr⟩ := Option.ne_none_iff_exists'.mp (registersOf_ne_none.mpr hsome)
  have hself := registersOf_writeDeleted del hr (fun _ => root_apart hroot hid) hfresh
  have hother : ∀ {y}, y ≠ id → (doc.writeDeleted id del token).registersOf y = doc.registersOf y := fun hy =>
    registersOf_ext (doc.writeDeleted_schemaVersion _ _ _) (by rw [writeDeleted_get hy])
  refine ⟨doc.treeNodes_nodup, Doc.treeNodes_nodup _, fun y q => ?_, fun y => ?_⟩
  · rw [rawUnder_iff, rawUnder_iff]
    by_cases hy : y = id
    · rw [hy, hself, hr]
      simp
    · rw [hother hy]
  · rw [flagged_iff_registers, flagged_iff_registers]
    by_cases hy : y = id
    · rw [hy, hself]
      simp [hdel]
    · rw [hother hy, or_iff_left hy]

theorem buried_deleted : y ∈ (doc.writeDeleted id del token).effectiveTree.deleted ↔
    y ∈ doc.effectiveTree.deleted ∨ ReflTransGen (EffectiveEdge rootId doc.effectiveTree) y id :=
  (writeDeleted_tombstoned hroot hid hsome hfresh hdel).deleted_iff (Doc.rooted_spec (getRootId_eq hroot))
    (Doc.rooted_spec (getRootId_eq ((doc.writeDeleted_rootId _ _ _).trans hroot))) (mem_ids_iff.mpr hsome) hid

theorem buried_edge : EffectiveEdge rootId (doc.writeDeleted id del token).effectiveTree =
    EffectiveEdge rootId doc.effectiveTree :=
  (writeDeleted_tombstoned hroot hid hsome hfresh hdel).edge_eq (Doc.rooted_spec (getRootId_eq hroot))
    (Doc.rooted_spec (getRootId_eq ((doc.writeDeleted_rootId _ _ _).trans hroot)))

variable (hbelow : ∀ y, y ∉ doc.effectiveTree.deleted → ReflTransGen
  (EffectiveEdge rootId doc.effectiveTree) y id → y = id)

include hbelow

theorem buried_live : y ∉ (doc.writeDeleted id del token).effectiveTree.deleted ↔
    y ∉ doc.effectiveTree.deleted ∧ y ≠ id := by
  rw [buried_deleted hroot hid hsome hfresh hdel, not_or]
  apply and_congr_right
  intro hy
  rw [not_iff_not]
  constructor
  · exact hbelow y hy
  · rintro rfl
    exact .refl

theorem buried_list (q : JsString) :
    (doc.writeDeleted id del token).childIds q = (doc.childIds q).filter (· ≠ id) := by
  apply ordered_unique (childIds_ordered _ q)
  · apply ((childIds_ordered doc q).filter _).imp
    intro a b hab
    exact precedes_congr (Doc.writeDeleted_moveOf ..) (Doc.writeDeleted_moveOf ..) hab
  · intro y
    rw [mem_childIds (getRootId_eq ((doc.writeDeleted_rootId _ _ _).trans hroot)), List.mem_filter,
      mem_childIds (getRootId_eq hroot),
      buried_edge hroot hid hsome hfresh hdel, buried_live hroot hid hsome hfresh hdel hbelow,
      decide_eq_true_eq, and_assoc]

end Burial

structure Absorbs (doc doc' : Doc) (rootId id targetId : JsString) : Prop where
  contents : ∀ y, doc'.contentOf y = doc.contentOf y
  listed : ∀ y, (doc'.moveOf y).isSome = (doc.moveOf y).isSome
  live : ∀ y, y ∉ doc'.effectiveTree.deleted ↔ y ∉ doc.effectiveTree.deleted ∧ y ≠ id
  children : doc'.childIds targetId = (doc.childIds targetId).filter (· ≠ id) ++ doc.childIds id
  subtrees : ∀ c ∈ doc.childIds id, ∀ y, TransGen (EffectiveEdge rootId doc'.effectiveTree) y c ↔
    TransGen (EffectiveEdge rootId doc.effectiveTree) y c

section Absorbing

variable {doc doc' : Doc} {rootId id targetId token y : JsString} {del : DeletedRegister}
  (h : Adopted doc doc' targetId ((doc.getChildren targetId).getLast?.map OutlineNode.rank) (doc.childIds id))
  (hroot : doc.rootId = some rootId) (hcan : CanRehome doc.treeNodes rootId (doc.childIds id) id targetId)
  (hsource : id ∉ doc.effectiveTree.deleted) (htarget : targetId ∉ doc.effectiveTree.deleted)
  (happart : ¬ ReflTransGen (EffectiveEdge rootId doc.effectiveTree) targetId id) (hid : id ≠ rootId)
  (hsome : (doc.moveOf id).isSome = true) (hfresh : FreshToken doc id token) (hdel : del.isDeleted = true)

include h hroot hcan hsource htarget happart hid hsome hfresh hdel

theorem adopted_absorbs : Absorbs doc (doc'.writeDeleted id del token) rootId id targetId := by
  have hget := getRootId_eq hroot
  have hroot' := h.rootId.trans hroot
  have hsome' : (doc'.moveOf id).isSome = true := h.listed.trans hsome
  have hnotin : id ∉ doc.childIds id := childIds_not_self hget
  have hfresh' : FreshToken doc' id token := by
    intro node hnode
    rw [h.others id hnotin] at hnode
    exact hfresh node hnode
  have hbelow := fun y => adopted_nothing_below h hroot hcan hsource htarget happart (y := y)
  constructor
  case contents =>
    intro y
    rw [writeDeleted_contentOf, h.contents]
  case listed =>
    intro y
    rw [Doc.writeDeleted_moveOf, h.listed]
  case live =>
    intro y
    rw [buried_live hroot' hid hsome' hfresh' hdel hbelow,
      adopted_deleted h hroot hcan hsource htarget happart]
  case children =>
    have hkept : (doc.childIds id).filter (· ≠ id) = doc.childIds id := by
      apply List.filter_eq_self.mpr
      intro c hc
      simpa using ne_of_mem_of_not_mem hc hnotin
    rw [buried_list hroot' hid hsome' hfresh' hdel hbelow,
      adopted_list h hroot hcan hsource htarget happart rfl,
      List.filter_append, hkept]
  case subtrees =>
    intro c hc y
    rw [buried_edge hroot' hid hsome' hfresh' hdel]
    exact h.rehomed.below_iff hcan (Doc.rooted_spec hget) (Doc.rooted_spec (adopted_get h hroot)) happart hc

end Absorbing

section Text

variable {doc : Doc} {rootId id targetId x y token : JsString} {at_ : ℕ} {text t : JsString}

theorem insertText_end (t s : JsString) : insertText t t.length s = t ++ s := by
  simp [insertText, splitText]

theorem insertContent_end (ht : doc.contentOf id = some t) :
    (insertContent doc id t.length text).contentOf id = some (t ++ text) := by
  unfold insertContent
  split_ifs with htext
  · rw [ht, htext, List.append_nil]
  · rw [Doc.editContent_contentOf, ht, Option.map_some, insertText_end]

theorem insertContent_getChildren (q : JsString) :
    (insertContent doc id at_ text).getChildren q = doc.getChildren q := by
  unfold insertContent
  split_ifs
  · rfl
  · exact Doc.editContent_getChildren id q _

theorem updateNode_restores {f : Node → Node} (hf : ∀ node, (f node).restoreRecords = node.restoreRecords)
    (h : FreshToken doc x token) : FreshToken (doc.updateNode id f) x token := by
  intro node hget
  rw [Doc.updateNode_get] at hget
  split_ifs at hget
  · obtain ⟨node', hget', rfl⟩ := Option.map_eq_some_iff.mp hget
    rw [hf]
    exact h node' hget'
  · exact h node hget

theorem insertContent_restores (h : FreshToken doc x token) :
    FreshToken (insertContent doc id at_ text) x token := by
  unfold insertContent
  split_ifs
  · exact h
  · exact updateNode_restores (fun _ => rfl) h

abbrev Doc.withText (doc : Doc) (id targetId : JsString) (at_ : ℕ) (text : JsString) : Doc :=
  insertContent ((doc.ensureContent id).ensureContent targetId) targetId at_ text

theorem withText_moveOf : (doc.withText id targetId at_ text).moveOf y = doc.moveOf y := by simp

theorem withText_reordered (x : JsString) : Reordered doc (doc.withText id targetId at_ text) x := by
  refine ⟨?_, fun y _ => withText_moveOf, fun y => ?_⟩
  · rw [insertContent_rootId, Doc.ensureContent, Doc.updateNode_rootId, Doc.ensureContent,
      Doc.updateNode_rootId]
  · rw [insertContent_placement, ensureContent_placement, ensureContent_placement]

theorem withText_getChildren (q : JsString) :
    (doc.withText id targetId at_ text).getChildren q = doc.getChildren q := by
  rw [insertContent_getChildren, Doc.ensureContent_getChildren, Doc.ensureContent_getChildren]

theorem withText_childIds (q : JsString) :
    (doc.withText id targetId at_ text).childIds q = doc.childIds q := by
  rw [Doc.childIds, withText_getChildren]
  rfl

theorem withText_restores (h : FreshToken doc x token) :
    FreshToken (doc.withText id targetId at_ text) x token :=
  insertContent_restores (updateNode_restores (fun _ => rfl) (updateNode_restores (fun _ => rfl) h))

theorem withText_contentOf_other (hy : y ≠ targetId) :
    ((doc.withText id targetId at_ text).contentOf y).getD [] = (doc.contentOf y).getD [] := by
  rw [insertContent_contentOf_other hy, Doc.ensureContent_getD, Doc.ensureContent_getD]

end Text

section Merge

variable {lib : FractionalIndexing} {Key : JsString → Prop} {actor : Actor} {doc doc' : Doc}
  {rootId id targetId token : JsString}

theorem mergeIntoPrevious_steps
    (hrun : mergeIntoPrevious lib doc id targetId token actor = (.ok true, doc')) :
    ∃ sourceText targetText reading d, ((doc.ensureContent id).ensureContent targetId).contentOf id =
    some sourceText ∧
      ((doc.ensureContent id).ensureContent targetId).contentOf targetId = some targetText ∧
      adoptChildren lib targetId actor 0
        (((doc.withText id targetId targetText.length sourceText).getChildren targetId).getLast?.map
          OutlineNode.rank)
        ((doc.withText id targetId targetText.length sourceText).getChildren id)
        (doc.withText id targetId targetText.length sourceText) = (.ok reading, d) ∧
      deleteItem d id token actor reading = (.ok (), doc') := by
  unfold mergeIntoPrevious at hrun
  dsimp only at hrun
  split at hrun
  · rename_i sourceText targetText hsource htarget
    split at hrun
    · cases hrun
    · rename_i reading d hadopt
      split at hrun
      · cases hrun
      · rename_i d' hdelete
        cases hrun
        exact ⟨sourceText, targetText, reading, d, hsource, htarget, hadopt, hdelete⟩
  · cases hrun

theorem canRehome (hroot : doc.rootId = some rootId) (hid : id ≠ rootId)
    (hacyclic : ¬ TransGen (RawEdge doc.treeNodes rootId) id id)
    (htarget : (doc.moveOf targetId).isSome = true)
    (hplain : targetId ≠ ROOT_PARENT_SENTINEL ∨ doc.childIds id = [])
    (happart : ¬ ReflTransGen (EffectiveEdge rootId doc.effectiveTree) targetId id) :
    CanRehome doc.treeNodes rootId (doc.childIds id) id targetId := by
  have hget := getRootId_eq hroot
  refine ⟨fun c hc => ?_, hacyclic, fun hback => ?_, fun c hc => ?_, mem_ids_iff.mpr htarget⟩
  · exact (((Doc.rooted_spec hget).edge_iff_raw hid).mp ((mem_childIds hget).mp hc).1).1
  · exact happart (raw_path_effective doc.treeNodes_nodup (Doc.rooted_spec hget) hacyclic hback)
  · rcases hplain with hplain | hnone
    · exact hplain
    · rw [hnone] at hc
      cases hc

theorem deleteItem_written {reading : ℕ} (hrun : deleteItem doc id token actor reading = (.ok (), doc')) :
    ∃ del : DeletedRegister, del.isDeleted = true ∧ doc' = doc.writeDeleted id del token := by
  unfold deleteItem at hrun
  split at hrun
  · cases hrun
  · cases hrun
    exact ⟨_, rfl, rfl⟩

theorem CanRehome.perm {nodes nodes' : List TreeNode} {moved : List JsString} {m p : JsString}
    (hperm : nodes.Perm nodes')
    (h : CanRehome nodes rootId moved m p) : CanRehome nodes' rootId moved m p := by
  obtain ⟨hunder, hacyclic, happart, hplain, hpresent⟩ := h
  rw [rawEdge_perm hperm] at hunder hacyclic happart
  exact ⟨hunder, hacyclic, happart, hplain, (ids_perm hperm).mem_iff.mp hpresent⟩

theorem listed_child (hget : doc.getRootId = some rootId) {c p : JsString} (hc : c ∈ doc.childIds p) :
    (doc.moveOf c).isSome = true :=
  mem_ids_iff.mp ((Doc.rooted_spec hget).edge_source ((mem_childIds hget).mp hc).1)

theorem merge_adopts (hlib : lib.Lawful Key) (h : RanksValid Key doc) (hroot : doc.rootId = some rootId)
    {reading : ℕ} {d : Doc}
    (hrun : adoptChildren lib targetId actor 0 ((doc.getChildren targetId).getLast?.map OutlineNode.rank)
      (doc.getChildren id)
      doc = (.ok reading, d)) :
    Adopted doc d targetId ((doc.getChildren targetId).getLast?.map OutlineNode.rank) (doc.childIds id) := by
  have hget := getRootId_eq hroot
  apply adoptChildren_adopted hlib (fun a => lastRank_key h targetId) (doc.getChildren_ids_nodup id) _ _ hrun
  · intro c hc
    exact root_apart hroot ((mem_childIds hget).mp (List.mem_map_of_mem hc)).1.1
  · intro c hc
    exact listed_child hget (List.mem_map_of_mem hc)

theorem withText_absorbed {at_ : ℕ} {text : JsString} (hroot : doc.rootId = some rootId)
    (h : Absorbs (doc.withText id targetId at_ text) doc' rootId id targetId)
    (htext : ((doc.withText id targetId at_ text).contentOf targetId).getD [] =
      (doc.contentOf targetId).getD [] ++ (doc.contentOf id).getD []) :
      MergeConserves doc doc' rootId id targetId := by
  have hsame : Reordered doc (doc.withText id targetId at_ text) id := withText_reordered id
  have hdeleted := (hsame.tree hroot).2.2
  have hlive : ∀ y, y ∉ doc'.effectiveTree.deleted ↔ y ∉ doc.effectiveTree.deleted ∧ y ≠ id := by
    rw [← hdeleted]
    exact h.live
  have hlisted : ∀ y, (doc'.moveOf y).isSome = (doc.moveOf y).isSome :=
    fun y => by rw [h.listed, withText_moveOf]
  have hsubtrees := h.subtrees
  simp only [withText_childIds, hsame.edge_eq hroot] at hsubtrees
  constructor
  case text => rw [h.contents, htext]
  case texts =>
    intro y hy
    rw [h.contents, withText_contentOf_other hy]
  case live =>
    intro y
    rw [Doc.Alive, Doc.Alive, hlisted, hlive, and_assoc]
  case children =>
    rw [h.children, withText_childIds, withText_childIds]
  case subtrees =>
    intro c hc y
    rw [LiveBelow, LiveBelow, hlisted, hlive, hsubtrees c hc y]
    apply and_congr_right
    intro _
    constructor
    · rintro ⟨⟨hy, -⟩, hyc⟩
      exact ⟨hy, hyc⟩
    · rintro ⟨hy, hyc⟩
      refine ⟨⟨hy, ?_⟩, hyc⟩
      rintro rfl
      -- a child is not above its parent
      have hget := getRootId_eq hroot
      exact (Doc.rooted_spec hget).not_cyclic c (TransGen.head ((mem_childIds hget).mp hc).1 hyc)

end Merge

/-- A merge that returned true conserves texts, live items and the order of the children. The target must
not be named like the parent of the root if it is to take children. -/
theorem mergeIntoPrevious_conserves {lib : FractionalIndexing} {Key : JsString → Prop}
    (hlib : lib.Lawful Key) (actor : Actor) {doc doc' : Doc} {rootId id targetId token : JsString}
    (hroot : doc.rootId = some rootId) (h : RanksValid Key doc) (hid : Visible doc id)
    (htarget : Visible doc targetId) (hacyclic : ¬ TransGen (RawEdge doc.treeNodes rootId) id id)
    (happart : ¬ ReflTransGen (EffectiveEdge rootId doc.effectiveTree) targetId id)
    (hplain : targetId ≠ ROOT_PARENT_SENTINEL ∨ doc.childIds id = []) (hfresh : FreshToken doc id token)
    (hrun : mergeIntoPrevious lib doc id targetId token actor = (.ok true, doc')) :
    MergeConserves doc doc' rootId id targetId := by
  have hget := getRootId_eq hroot
  obtain ⟨p, hp⟩ := hid.child
  obtain ⟨q, hq⟩ := htarget.child
  obtain ⟨hidedge, hidlive⟩ := (mem_childIds hget).mp hp
  obtain ⟨htedge, htlive⟩ := (mem_childIds hget).mp hq
  obtain ⟨source, text, reading, d, hsource, htext, hadopt, hdelete⟩ := mergeIntoPrevious_steps hrun
  obtain ⟨del, hdel, rfl⟩ := deleteItem_written hdelete
  have hcan := canRehome hroot hidedge.1 hacyclic (listed_child hget hq) hplain happart
  have hsame : Reordered doc (doc.withText id targetId text.length source) id := withText_reordered id
  have hroot' := hsame.rootId.trans hroot
  have h' : RanksValid Key (doc.withText id targetId text.length source) :=
    ranksValid_of_moveOf h fun y => withText_moveOf
  have hcan' := hcan.perm hsame.perm.symm
  rw [← withText_childIds] at hcan'
  have hdeleted := (hsame.tree hroot).2.2
  have habsorbs :=
    adopted_absorbs (merge_adopts hlib h' hroot' hadopt) hroot' hcan' (by rwa [hdeleted])
      (by rwa [hdeleted])
    (by rwa [hsame.edge_eq hroot]) hidedge.1
    (by rw [withText_moveOf]; exact listed_child hget hp) (withText_restores hfresh) hdel
  apply withText_absorbed hroot habsorbs
  have hbefore : (doc.contentOf targetId).getD [] = text := by
    rw [← Doc.ensureContent_getD id, ← Doc.ensureContent_getD targetId, htext, Option.getD_some]
  have hafter : (doc.contentOf id).getD [] = source := by
    rw [← Doc.ensureContent_getD id, ← Doc.ensureContent_getD targetId, hsource, Option.getD_some]
  rw [insertContent_end htext, Option.getD_some, hbefore, hafter]

section Examples

theorem not_below_of_top {doc : Doc} {rootId x y : JsString}
    (hx : doc.effectiveTree.parents.get x = some rootId) (hxy : x ≠ y)
    (hy : y ≠ rootId) : ¬ ReflTransGen (EffectiveEdge rootId doc.effectiveTree) x y := by
  intro hback
  obtain ⟨z, hedge, hzy⟩ := (ReflTransGen.cases_head hback).resolve_left hxy
  obtain rfl := Option.some.inj (hx.symm.trans hedge.2)
  rcases ReflTransGen.cases_head hzy with he | ⟨w, hw, -⟩
  · exact hy he.symm
  · exact hw.1 rfl

def merged : Doc := (mergeIntoPrevious sampleKeys indented (js ['a']) (js ['k']) (js ['t']) deviceA).2

theorem mergeIntoPrevious_conserves_indented :
    MergeConserves indented merged (js ['r']) (js ['a']) (js ['k']) := by
  have hrun : mergeIntoPrevious sampleKeys indented (js ['a']) (js ['k']) (js ['t']) deviceA =
      (.ok true, merged) := rfl
  have hvisible : ∃ n ∈ indented.placedNodes, n.id = js ['a'] ∧ indented.isLive n = true := by decide
  have hvisible' : ∃ n ∈ indented.placedNodes, n.id = js ['k'] ∧ indented.isLive n = true := by decide
  have hreach : Reachable sampleKeys (js ['r']) indented := .ran _ _ bullets_reachable
  apply mergeIntoPrevious_conserves sampleKeys_lawful deviceA rfl
    (reachable_ranksValid sampleKeys_lawful hreach) hvisible
    hvisible' (no_rawPath_of_root rfl rfl) (not_below_of_top rfl (by decide) (by decide))
      (Or.inl (by decide)) _ hrun
  rintro node ⟨⟩
  decide

def sentinelTargetDoc : Doc := placedDoc (js ['r']) [(js ['r'], ROOT_PARENT_SENTINEL), (js ['x'], js ['r']),
  (ROOT_PARENT_SENTINEL, js ['r']), (js ['c'], js ['x'])]

/-- The child of an item that is merged into one named like the parent of the root is shown at the top
level. -/
theorem mergeIntoPrevious_scatters : sampleKeys.Lawful SampleKey ∧ sentinelTargetDoc.schemaVersion = some 2 ∧
    sentinelTargetDoc.rootId = some (js ['r']) ∧ RanksValid SampleKey sentinelTargetDoc ∧
    Visible sentinelTargetDoc (js ['x']) ∧ Visible sentinelTargetDoc ROOT_PARENT_SENTINEL ∧
    ¬ TransGen (RawEdge sentinelTargetDoc.treeNodes (js ['r'])) (js ['x']) (js ['x']) ∧
    ¬ ReflTransGen (EffectiveEdge (js ['r']) sentinelTargetDoc.effectiveTree) ROOT_PARENT_SENTINEL
      (js ['x']) ∧
    FreshToken sentinelTargetDoc (js ['x']) (js ['t']) ∧
    (mergeIntoPrevious sampleKeys sentinelTargetDoc (js ['x']) ROOT_PARENT_SENTINEL (js ['t']) deviceA).1 =
    .ok true ∧
    ¬ MergeConserves sentinelTargetDoc
      (mergeIntoPrevious sampleKeys sentinelTargetDoc (js ['x']) ROOT_PARENT_SENTINEL (js ['t']) deviceA).2
      (js ['r']) (js ['x'])
      ROOT_PARENT_SENTINEL := by
  have hvisible : ∃ n ∈ sentinelTargetDoc.placedNodes, n.id = js ['x'] ∧
      sentinelTargetDoc.isLive n = true := by decide
  have hvisible' : ∃ n ∈ sentinelTargetDoc.placedNodes, n.id = ROOT_PARENT_SENTINEL ∧
      sentinelTargetDoc.isLive n = true := by
    decide
  have hranks : ∀ n ∈ sentinelTargetDoc.allNodes, n.rank = js ['a', '0'] := by decide
  refine ⟨sampleKeys_lawful, rfl, rfl, fun y move hmove => ?_, hvisible, hvisible',
    no_rawPath_of_root rfl rfl,
    not_below_of_top rfl (by decide) (by decide), ?_, rfl, fun hconserves => ?_⟩
  · obtain ⟨n, hn, -, -, hrank⟩ := Doc.allNodes_of_moveOf hmove
    rw [← hrank, hranks n hn]
    exact ⟨js ['a'], 48, rfl, by decide⟩
  · rintro node ⟨⟩
    decide
  · have hchildren := hconserves.children
    exact absurd hchildren (by decide)

end Examples

end OpenOutliner
