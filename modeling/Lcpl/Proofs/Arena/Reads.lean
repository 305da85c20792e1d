import Mathlib.Data.List.Nodup
import Mathlib.Data.List.Perm.Basic
import Mathlib.Data.List.Perm.Subperm
import Mathlib.Order.Basic
import Mathlib.Data.Nat.Basic
import Lcpl.Tree.Arena
import Lcpl.Proofs.Term.Basic

/-!
# Terms in an arena

A handle of an arena reads as a term when the nodes below it, followed to the end, are the nodes of
that term. The handles met on the way are listed, each as often as it is met: the nodes below a
handle form a tree when no handle is listed twice.

Whoever changes only nodes that it owns, and owns new nodes as it makes them, disturbs no term that
is read from other nodes. `Arena.Grows` says so of a change to an arena.

## Main definitions

* `Jointly` — a list whose elements have handles, with the handles put together
* `Arena.Reads`, `Arena.ReadsAll` — a handle reads as a term, and many do so apart from each other
* `Arena.Grows` — a change to an arena that keeps to the nodes it owns

## Main results

* `Arena.Reads.unique` — a handle reads as one term at most
* `Arena.Reads.of_get?` — a reading depends on the nodes it meets only
* `Arena.Grows.trans`, `Arena.Grows.frame` — changes compose, and leave other nodes alone
-/

namespace Lcpl

variable {ι α β : Type}

/-! ### Lists with handles -/

/-- Every element of a list has a list of handles, and these lists are put together. -/
inductive Jointly (R : α → List ExprId → Prop) : List α → List ExprId → Prop where
  | nil : Jointly R [] []
  | cons {x xs ids rest} (head : R x ids) (tail : Jointly R xs rest) :
      Jointly R (x :: xs) (ids ++ rest)

namespace Jointly

variable {R S : α → List ExprId → Prop} {x : α} {xs ys : List α} {ids ids' : List ExprId}

@[simp] theorem nil_iff : Jointly R [] ids ↔ ids = [] := by
  constructor
  · rintro ⟨⟩
    rfl
  · rintro rfl
    exact .nil

theorem cons_iff :
    Jointly R (x :: xs) ids ↔
      ∃ front rest, ids = front ++ rest ∧ R x front ∧ Jointly R xs rest := by
  constructor
  · rintro ⟨⟩
    exact ⟨_, _, rfl, ‹_›, ‹_›⟩
  · rintro ⟨front, rest, rfl, head, tail⟩
    exact .cons head tail

theorem singleton_iff : Jointly R [x] ids ↔ R x ids := by
  rw [cons_iff]
  constructor
  · rintro ⟨front, rest, rfl, head, ⟨⟩⟩
    rwa [List.append_nil]
  · intro h
    exact ⟨ids, [], (List.append_nil ids).symm, h, .nil⟩

theorem append_iff :
    Jointly R (xs ++ ys) ids ↔
      ∃ front rest, ids = front ++ rest ∧ Jointly R xs front ∧ Jointly R ys rest := by
  induction xs generalizing ids with
  | nil => simp
  | cons x xs ih =>
    simp only [List.cons_append, cons_iff, ih]
    constructor
    · rintro ⟨front, _, rfl, head, front', rest, rfl, htail, hys⟩
      exact ⟨front ++ front', rest, (List.append_assoc ..).symm, ⟨_, _, rfl, head, htail⟩, hys⟩
    · rintro ⟨_, rest, rfl, ⟨front, front', rfl, head, htail⟩, hys⟩
      exact ⟨front, front' ++ rest, List.append_assoc .., head, _, _, rfl, htail, hys⟩

theorem map_iff {S : β → List ExprId → Prop} {f : α → β} :
    Jointly S (xs.map f) ids ↔ Jointly (fun x => S (f x)) xs ids := by
  induction xs generalizing ids with
  | nil => simp
  | cons x xs ih => simp only [List.map_cons, cons_iff, ih]

/-- An element, with its handles among all. -/
theorem exists_of_mem (h : Jointly R xs ids) (hmem : x ∈ xs) : ∃ part, R x part ∧ part ⊆ ids := by
  induction h with
  | nil => simp at hmem
  | cons head tail ih =>
    rcases List.mem_cons.mp hmem with rfl | hmem
    · exact ⟨_, head, List.subset_append_left ..⟩
    · obtain ⟨part, hpart, hsub⟩ := ih hmem
      exact ⟨part, hpart, List.Subset.trans hsub (List.subset_append_right ..)⟩

/-- Every handle belongs to some element. -/
theorem exists_of_mem_handles {i : ExprId} (h : Jointly R xs ids) (hi : i ∈ ids) :
    ∃ x ∈ xs, ∃ part, R x part ∧ i ∈ part ∧ part ⊆ ids := by
  induction h with
  | nil => simp at hi
  | @cons x xs own rest head tail ih =>
    rcases List.mem_append.mp hi with hi | hi
    · exact ⟨x, List.mem_cons_self, own, head, hi, List.subset_append_left ..⟩
    · obtain ⟨y, hy, part, hpart, hi, hsub⟩ := ih hi
      exact ⟨y, List.mem_cons_of_mem x hy, part, hpart, hi,
        List.Subset.trans hsub (List.subset_append_right ..)⟩

/-- Where no handle is listed twice, two elements have no handle together. -/
theorem pairwise (h : Jointly R xs ids) (hnodup : ids.Nodup) :
    xs.Pairwise fun x y => ∃ part part', R x part ∧ R y part' ∧ part.Disjoint part' := by
  induction h with
  | nil => exact .nil
  | cons head tail ih =>
    obtain ⟨-, hrest, hdisjoint⟩ := List.nodup_append'.mp hnodup
    refine .cons (fun y hy => ?_) (ih hrest)
    obtain ⟨part, hpart, hsub⟩ := tail.exists_of_mem hy
    exact ⟨_, part, head, hpart, fun z hz hz' => hdisjoint hz (hsub hz')⟩

/-- An element has no more handles than all. -/
theorem exists_length_le (h : Jointly R xs ids) (hmem : x ∈ xs) :
    ∃ part, R x part ∧ part.length ≤ ids.length := by
  obtain ⟨front, back, rfl⟩ := List.append_of_mem hmem
  obtain ⟨before, _, rfl, -, h⟩ := append_iff.mp h
  obtain ⟨part, behind, rfl, hpart, -⟩ := cons_iff.mp h
  refine ⟨part, hpart, ?_⟩
  simp only [List.length_append]
  omega

/-- What holds of the handles of each element holds of all handles. -/
theorem forall_mem {P : ExprId → Prop} (h : Jointly R xs ids)
    (hR : ∀ x ∈ xs, ∀ part, R x part → ∀ z ∈ part, P z) : ∀ z ∈ ids, P z := by
  induction h with
  | nil => simp
  | cons head tail ih =>
    intro z hz
    rcases List.mem_append.mp hz with hz | hz
    · exact hR _ (by simp) _ head z hz
    · exact ih (fun x hmem => hR x (by simp [hmem])) z hz

/-- The relation may change where only handles of the list are concerned. -/
theorem mono (h : Jointly R xs ids) (hRS : ∀ x ∈ xs, ∀ part, part ⊆ ids → R x part → S x part) :
    Jointly S xs ids := by
  induction h with
  | nil => exact .nil
  | cons head tail ih =>
    refine .cons (hRS _ (by simp) _ (List.subset_append_left ..) head) (ih ?_)
    intro x hmem part hsub
    exact hRS x (by simp [hmem]) part (List.Subset.trans hsub (List.subset_append_right ..))

/-- The elements may be put into another order, and the handles with them. -/
theorem of_perm (h : Jointly R xs ids) (hperm : xs.Perm ys) :
    ∃ ids', Jointly R ys ids' ∧ ids'.Perm ids := by
  induction hperm generalizing ids with
  | nil => exact ⟨ids, h, .refl ids⟩
  | cons x _ ih =>
    obtain ⟨front, rest, rfl, head, tail⟩ := cons_iff.mp h
    obtain ⟨rest', tail', hrest⟩ := ih tail
    exact ⟨front ++ rest', .cons head tail', hrest.append_left front⟩
  | swap x y xs =>
    obtain ⟨front, _, rfl, hy, tail⟩ := cons_iff.mp h
    obtain ⟨front', rest, rfl, hx, tail⟩ := cons_iff.mp tail
    exact ⟨front' ++ (front ++ rest), .cons hx (.cons hy tail), List.perm_append_comm_assoc ..⟩
  | trans _ _ ih ih' =>
    obtain ⟨mid, hmid, hperm⟩ := ih h
    obtain ⟨ids', hids', hperm'⟩ := ih' hmid
    exact ⟨ids', hids', hperm'.trans hperm⟩

/-- If a key determines the element and its handles, the keys determine the list and all handles. -/
theorem unique {key : α → β} (h : Jointly R xs ids) (h' : Jointly R ys ids')
    (hkey : xs.map key = ys.map key)
    (hR : ∀ x ∈ xs, ∀ y part part', key x = key y → R x part → R y part' → x = y ∧ part = part') :
    xs = ys ∧ ids = ids' := by
  induction h generalizing ys ids' with
  | nil =>
    obtain rfl := List.map_eq_nil_iff.mp hkey.symm
    exact ⟨rfl, (nil_iff.mp h').symm⟩
  | cons head tail ih =>
    cases h' with
    | nil => simp at hkey
    | cons head' tail' =>
      rw [List.map_cons, List.map_cons, List.cons.injEq] at hkey
      obtain ⟨rfl, rfl⟩ := hR _ (by simp) _ _ _ hkey.1 head head'
      obtain ⟨rfl, rfl⟩ := ih tail' hkey.2 fun x hx => hR x (by simp [hx])
      exact ⟨rfl, rfl⟩

end Jointly

namespace Arena

variable {a b c : Arena} {mark : ExprId → ι} {id : ExprId} {t t' : Term ι} {ids ids' : List ExprId}

/-! ### Readings -/

/-- The handle `id` reads as a term: its node has the line, the recorded type and the form of the
term, and each of its parts reads as the part of the term in the same place. The list holds every
handle met. -/
inductive Reads (a : Arena) (mark : ExprId → ι) : ExprId → Term ι → List ExprId → Prop where
  | node {id line type ids} (form : Form (ExprId × Term ι))
      (hget : a.get? id = some ⟨line, form.map Prod.fst, type⟩)
      (hparts : Jointly (fun part => Reads a mark part.1 part.2) form.children ids) :
      Reads a mark id (.node (mark id) line (form.map Prod.snd) type) (id :: ids)

/-- Handles that read as terms, apart from each other. -/
def ReadsAll (a : Arena) (mark : ExprId → ι) : List (ExprId × Term ι) → List ExprId → Prop :=
  Jointly fun part => a.Reads mark part.1 part.2

theorem lt_of_get? {node : Node} (h : a.get? id = some node) : id.index < a.size :=
  contains_iff.mp (contains_iff_exists_get?.mpr ⟨node, h⟩)

/-- There are no more handles than nodes. -/
theorem length_le_size (hnodup : ids.Nodup) (hlt : ∀ x ∈ ids, x.index < a.size) :
    ids.length ≤ a.size := by
  have hsub : ids ⊆ a.ids := fun x hx => mem_ids.mpr (hlt x hx)
  simpa [Arena.ids] using (List.subperm_of_subset hnodup hsub).length_le

namespace Reads

theorem mark_eq (h : a.Reads mark id t ids) : t.mark = mark id := by
  cases h
  rfl

theorem mem_self (h : a.Reads mark id t ids) : id ∈ ids := by
  cases h
  exact List.mem_cons_self

theorem exists_get? (h : a.Reads mark id t ids) :
    ∃ node, a.get? id = some node ∧ node.line = t.line ∧ node.recordedType = t.type := by
  cases h with
  | node form hget => exact ⟨_, hget, rfl, rfl⟩

/-- What a reading consists of. -/
theorem exists_form (h : a.Reads mark id t ids) :
    ∃ line type own, ∃ form : Form (ExprId × Term ι),
      t = .node (mark id) line (form.map Prod.snd) type ∧
      ids = id :: own ∧ a.get? id = some ⟨line, form.map Prod.fst, type⟩ ∧
      Jointly (fun part => a.Reads mark part.1 part.2) form.children own := by
  cases h with
  | node form hget hparts => exact ⟨_, _, _, form, rfl, rfl, hget, hparts⟩

/-- Only nodes of the arena are met. -/
theorem lt_size (h : a.Reads mark id t ids) : ∀ x ∈ ids, x.index < a.size := by
  induction t using Term.induction generalizing id ids with
  | node m line form type ih =>
    cases h with
    | node form hget hparts =>
      intro x hx
      rcases List.mem_cons.mp hx with rfl | hx
      · exact lt_of_get? hget
      · refine hparts.forall_mem (P := fun x => x.index < a.size)
          (fun part hpart ids hread => ?_) x hx
        exact ih part.2 (Form.mem_children_map hpart) hread

/-- A tree has no more nodes than the arena. -/
theorem length_le (h : a.Reads mark id t ids) (hnodup : ids.Nodup) : ids.length ≤ a.size :=
  length_le_size hnodup h.lt_size

/-- A reading depends on the nodes it meets, and on nothing else. -/
theorem of_get? (h : a.Reads mark id t ids) (hb : ∀ x ∈ ids, b.get? x = a.get? x) :
    b.Reads mark id t ids := by
  induction t using Term.induction generalizing id ids with
  | node m line form type ih =>
    cases h with
    | node form hget hparts =>
      refine .node form ((hb _ (by simp)).trans hget) ?_
      refine hparts.mono fun part hpart ids hsub hread => ?_
      refine ih part.2 (Form.mem_children_map hpart) hread fun x hx => ?_
      exact hb x (by simp [hsub hx])

/-- A handle reads as one term at most. -/
theorem unique (h : a.Reads mark id t ids) (h' : a.Reads mark id t' ids') :
    t = t' ∧ ids = ids' := by
  induction t using Term.induction generalizing id ids t' ids' with
  | node m line form type ih =>
    cases h with
    | node form hget hparts =>
      cases h' with
      | node form' hget' hparts' =>
        obtain ⟨rfl, hform, rfl⟩ := by simpa using hget.symm.trans hget'
        have hhandles : form.children.map Prod.fst = form'.children.map Prod.fst := by
          rw [← Form.children_map, ← Form.children_map, hform]
        obtain ⟨hchildren, rfl⟩ := hparts.unique hparts' hhandles (by
          intro part hpart part' ids ids' hkey hread hread'
          obtain ⟨ht, rfl⟩ := ih part.2 (Form.mem_children_map hpart) hread (hkey ▸ hread')
          exact ⟨Prod.ext hkey ht, rfl⟩)
        obtain rfl := Form.eq_of_map_eq hform hchildren
        exact ⟨rfl, rfl⟩

end Reads

theorem readsAll_singleton : a.ReadsAll mark [(id, t)] ids ↔ a.Reads mark id t ids :=
  Jointly.singleton_iff

theorem ReadsAll.lt_size {parts : List (ExprId × Term ι)} (h : a.ReadsAll mark parts ids) :
    ∀ x ∈ ids, x.index < a.size :=
  h.forall_mem fun _ _ _ hread => hread.lt_size

theorem ReadsAll.of_get? {parts : List (ExprId × Term ι)} (h : a.ReadsAll mark parts ids)
    (hb : ∀ x ∈ ids, b.get? x = a.get? x) : b.ReadsAll mark parts ids :=
  h.mono fun _ _ _ hsub hread => hread.of_get? fun x hx => hb x (hsub hx)

/-! ### Changes that keep to what they own -/

/-- `b` is `a` after a change that owned the handles `owned` and ends up with `owned'`. Nodes that
are not owned stay, and whatever is owned in the end was owned before or is new. -/
structure Grows (a : Arena) (owned : List ExprId) (b : Arena) (owned' : List ExprId) : Prop where
  size_le : a.size ≤ b.size
  get?_eq : ∀ x, x.index < a.size → x ∉ owned → b.get? x = a.get? x
  nodup : owned'.Nodup
  old_or_new : ∀ x ∈ owned', x ∈ owned ∨ a.size ≤ x.index

namespace Grows

variable {owned owned' owned'' rest : List ExprId}

theorem refl (h : owned.Nodup) : a.Grows owned a owned where
  size_le := le_rfl
  get?_eq _ _ _ := rfl
  nodup := h
  old_or_new _ hx := .inl hx

theorem trans (h : a.Grows owned b owned') (h' : b.Grows owned' c owned'') :
    a.Grows owned c owned'' where
  size_le := h.size_le.trans h'.size_le
  get?_eq x hx hn := by
    have hn' : x ∉ owned' := fun hx' => by
      rcases h.old_or_new x hx' with hx' | hx'
      · exact hn hx'
      · omega
    rw [h'.get?_eq x (hx.trans_le h.size_le) hn', h.get?_eq x hx hn]
  nodup := h'.nodup
  old_or_new x hx := by
    rcases h'.old_or_new x hx with hx | hx
    · exact h.old_or_new x hx
    · exact .inr (h.size_le.trans hx)

theorem perm (h : a.Grows owned b owned') {own own' : List ExprId} (hp : own.Perm owned)
    (hp' : own'.Perm owned') : a.Grows own b own' where
  size_le := h.size_le
  get?_eq x hx hn := h.get?_eq x hx fun hx' => hn (hp.mem_iff.mpr hx')
  nodup := hp'.nodup_iff.mpr h.nodup
  old_or_new x hx := by
    rcases h.old_or_new x (hp'.mem_iff.mp hx) with hx | hx
    · exact .inl (hp.mem_iff.mpr hx)
    · exact .inr hx

/-- Owned nodes may be given up. -/
theorem sublist (h : a.Grows owned b owned') (hs : owned''.Sublist owned') :
    a.Grows owned b owned'' where
  size_le := h.size_le
  get?_eq := h.get?_eq
  nodup := h.nodup.sublist hs
  old_or_new x hx := h.old_or_new x (hs.subset hx)

/-- Other nodes of the arena, owned beside those of the change, are still owned afterwards. -/
theorem frame (h : a.Grows owned b owned') (hrest : (owned ++ rest).Nodup)
    (hlt : ∀ x ∈ rest, x.index < a.size) : a.Grows (owned ++ rest) b (owned' ++ rest) where
  size_le := h.size_le
  get?_eq x hx hn := h.get?_eq x hx fun hx' => hn (List.mem_append_left _ hx')
  nodup := by
    refine List.Nodup.append h.nodup (List.nodup_append.mp hrest).2.1 fun x hx hx' => ?_
    rcases h.old_or_new x hx with hx | hx
    · exact (List.disjoint_of_nodup_append hrest) hx hx'
    · have := hlt x hx'
      omega
  old_or_new x hx := by
    rcases List.mem_append.mp hx with hx | hx
    · exact (h.old_or_new x hx).imp_left (List.mem_append_left _)
    · exact .inl (List.mem_append_right _ hx)

/-- A node of the arena that a change does not own is not owned afterwards either. -/
theorem not_mem (h : a.Grows owned b owned') (hid : id ∉ owned) (hlt : id.index < a.size) :
    id ∉ owned' := by
  intro hmem
  rcases h.old_or_new id hmem with hmem | hle
  · exact hid hmem
  · omega

/-- One more node of the arena may be owned. -/
theorem cons (h : a.Grows owned b owned') (hid : id ∉ owned) (hlt : id.index < a.size) :
    a.Grows (id :: owned) b (id :: owned') where
  size_le := h.size_le
  get?_eq x hx hn := h.get?_eq x hx fun hmem => hn (List.mem_cons_of_mem _ hmem)
  nodup := List.nodup_cons.mpr ⟨h.not_mem hid hlt, h.nodup⟩
  old_or_new x hx := by
    rcases List.mem_cons.mp hx with rfl | hx
    · exact .inl List.mem_cons_self
    · exact (h.old_or_new x hx).imp_left (List.mem_cons_of_mem _)

/-- The nodes beside those of a change are as they were. -/
theorem get?_eq_of_append (h : a.Grows owned b owned') (hrest : (owned ++ rest).Nodup)
    (hlt : ∀ x ∈ rest, x.index < a.size) : ∀ x ∈ rest, b.get? x = a.get? x :=
  fun x hx => h.get?_eq x (hlt x hx) fun hx' => List.disjoint_of_nodup_append hrest hx' hx

/-- A new node is owned. -/
theorem alloc (h : owned.Nodup) (hlt : ∀ x ∈ owned, x.index < a.size) (node : Node) :
    a.Grows owned (a.alloc node) (a.next :: owned) where
  size_le := by simp
  get?_eq x hx _ := by
    have : x ≠ a.next := by
      rintro rfl
      simp [next] at hx
    rw [get?_alloc, if_neg this]
  nodup := by
    refine List.nodup_cons.mpr ⟨fun hmem => ?_, h⟩
    have := hlt _ hmem
    simp [next] at this
  old_or_new x hx := by
    rcases List.mem_cons.mp hx with rfl | hx
    · exact .inr le_rfl
    · exact .inl hx

/-- An owned node may be replaced. -/
theorem set (h : owned.Nodup) (hid : id ∈ owned) (node : Node) :
    a.Grows owned (a.set id node) owned where
  size_le := by simp
  get?_eq x _ hn := by
    have : x ≠ id := fun heq => hn (heq ▸ hid)
    rw [get?_set, if_neg fun hx => this hx.1]
  nodup := h
  old_or_new _ hx := .inl hx

end Grows

end Arena

end Lcpl
