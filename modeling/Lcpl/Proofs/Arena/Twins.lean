import Mathlib.Data.List.Forall2
import Mathlib.Logic.Equiv.Basic
import Lcpl.Proofs.Arena.Reads
import Lcpl.Proofs.Tree.Reordered

/-!
# Trees of nodes that read alike

Where two arenas hold the same term, they hold it in nodes that are the same up to their handles.
The handles are met in the same order, so each node of the one has its twin in the other, and a
renaming that takes every handle to that of its twin takes the one tree to the other.

Trees of twins may be put together, and in different orders. A renaming that fits all of them is
found in the end: it exists whenever the handles of the one arena are those of the other, in another
order.

## Main definitions

* `Twins` — nodes of two arenas that are the same up to a renaming, in some order

## Main results

* `Twins.append`, `Jointly.twins`, `Jointly.twins_of_perm` — nodes that are put together
* `Arena.Reads.twins` — two readings of one term
* `Twins.exists_equiv` — a renaming that takes every node to its twin
-/

namespace Lcpl

variable {ι α β : Type}

/-- The nodes `ids` of `a`, in some order, have the nodes `ids'` of `b` for their twins. They have
the same marks, and every renaming that takes each handle to that of its twin takes nodes to nodes,
and has the property `rel`. -/
def Twins (mark : ExprId → ι) (a b : Arena) (ids ids' : List ExprId)
    (rel : (ExprId → ExprId) → Prop) : Prop :=
  ∃ own : List ExprId, own.Perm ids ∧ own.map mark = ids'.map mark ∧
    ∀ ρ : ExprId → ExprId, own.map ρ = ids' →
      rel ρ ∧ ∀ x ∈ own, b.get? (ρ x) = (a.get? x).map (Node.rename ρ)

namespace Twins

variable {mark : ExprId → ι} {a b : Arena} {ids ids' more more' : List ExprId}
  {rel rel' : (ExprId → ExprId) → Prop}

theorem nil (h : ∀ ρ, rel ρ) : Twins mark a b [] [] rel :=
  ⟨[], .refl _, rfl, fun ρ _ => ⟨h ρ, by simp⟩⟩

theorem imp (h : Twins mark a b ids ids' rel) (hrel : ∀ ρ, rel ρ → rel' ρ) :
    Twins mark a b ids ids' rel' := by
  obtain ⟨own, hperm, hmark, hall⟩ := h
  exact ⟨own, hperm, hmark, fun ρ hρ => (hall ρ hρ).imp_left (hrel ρ)⟩

theorem of_perm (h : Twins mark a b ids ids' rel) (hperm : ids.Perm more) :
    Twins mark a b more ids' rel := by
  obtain ⟨own, hown, hmark, hall⟩ := h
  exact ⟨own, hown.trans hperm, hmark, hall⟩

theorem length_eq (h : Twins mark a b ids ids' rel) : ids.length = ids'.length := by
  obtain ⟨own, hperm, hmark, -⟩ := h
  rw [← hperm.length_eq]
  simpa using congrArg List.length hmark

theorem append (h : Twins mark a b ids ids' rel) (h' : Twins mark a b more more' rel') :
    Twins mark a b (ids ++ more) (ids' ++ more') fun ρ => rel ρ ∧ rel' ρ := by
  obtain ⟨own, hperm, hmark, hall⟩ := h
  obtain ⟨own', hperm', hmark', hall'⟩ := h'
  refine ⟨own ++ own', hperm.append hperm', ?_, fun ρ hρ => ?_⟩
  · rw [List.map_append, List.map_append, hmark, hmark']
  · -- as many handles as marks
    have hlength : (own.map ρ).length = ids'.length := by
      simpa using congrArg List.length hmark
    rw [List.map_append] at hρ
    obtain ⟨hρ, hρ'⟩ := List.append_inj hρ hlength
    obtain ⟨hrel, hget⟩ := hall ρ hρ
    obtain ⟨hrel', hget'⟩ := hall' ρ hρ'
    refine ⟨⟨hrel, hrel'⟩, fun x hx => ?_⟩
    rcases List.mem_append.mp hx with hx | hx
    · exact hget x hx
    · exact hget' x hx

end Twins

/-- Items that are matched, one by one. -/
theorem Jointly.twins {mark : ExprId → ι} {a b : Arena} {R : α → List ExprId → Prop}
    {S : β → List ExprId → Prop} {M : α → β → Prop} {rel : α → β → (ExprId → ExprId) → Prop}
    {xs : List α} {ys : List β} {ids ids' : List ExprId} (hM : List.Forall₂ M xs ys)
    (h : Jointly R xs ids) (h' : Jointly S ys ids')
    (htwins : ∀ x ∈ xs, ∀ y own own', M x y → R x own → S y own' →
      Twins mark a b own own' (rel x y)) :
    Twins mark a b ids ids' fun ρ => List.Forall₂ (fun x y => rel x y ρ) xs ys := by
  induction hM generalizing ids ids' with
  | nil =>
    obtain rfl := nil_iff.mp h
    obtain rfl := nil_iff.mp h'
    exact .nil fun _ => .nil
  | cons head _ ih =>
    obtain ⟨own, rest, rfl, hx, h⟩ := cons_iff.mp h
    obtain ⟨own', rest', rfl, hy, h'⟩ := cons_iff.mp h'
    have hfirst := htwins _ List.mem_cons_self _ own own' head hx hy
    have hrest := ih h h' fun x hx => htwins x (List.mem_cons_of_mem _ hx)
    exact (hfirst.append hrest).imp fun ρ hρ => .cons hρ.1 hρ.2

/-- Two lists that match after the first is brought into another order. What holds of a matching
pair is read off the items. -/
theorem exists_perm_forall₂_of_map {γ δ : Type} {M : γ → δ → Prop} {f : α → γ} {g : β → δ}
    {xs : List α} {ys : List β} {mid : List γ} (hperm : (xs.map f).Perm mid)
    (hM : List.Forall₂ M mid (ys.map g)) :
    ∃ zs, xs.Perm zs ∧ List.Forall₂ (fun x y => M (f x) (g y)) zs ys := by
  -- reordering what the items are mapped to can be traced back to the items
  have hcomp : Relation.Comp (List.Forall₂ fun x y => f x = y) List.Perm xs mid := by
    refine ⟨xs.map f, ?_, hperm⟩
    rw [List.forall₂_map_right_iff]
    exact List.forall₂_same.mpr fun _ _ => rfl
  rw [List.forall₂_comp_perm_eq_perm_comp_forall₂] at hcomp
  obtain ⟨zs, hzs, hmid⟩ := hcomp
  rw [← List.forall₂_map_left_iff, List.forall₂_eq_eq_eq] at hmid
  obtain rfl := hmid
  rw [List.forall₂_map_left_iff, List.forall₂_map_right_iff] at hM
  exact ⟨zs, hzs, hM⟩

/-- Items that are matched in another order. -/
theorem Jointly.twins_of_perm {mark : ExprId → ι} {a b : Arena} {R : α → List ExprId → Prop}
    {S : β → List ExprId → Prop} {M : α → β → Prop} {rel : α → β → (ExprId → ExprId) → Prop}
    {xs zs : List α} {ys : List β} {ids ids' : List ExprId} (hperm : xs.Perm zs)
    (hM : List.Forall₂ M zs ys) (h : Jointly R xs ids) (h' : Jointly S ys ids')
    (htwins : ∀ x y own own', M x y → R x own → S y own' → Twins mark a b own own' (rel x y)) :
    Twins mark a b ids ids' fun ρ => List.Forall₂ (fun x y => rel x y ρ) zs ys := by
  obtain ⟨own, hown, hids⟩ := h.of_perm hperm
  exact (hown.twins hM h' fun x _ => htwins x).of_perm hids

/-- The same form, where each slot of the one is taken to the slot of the other. -/
theorem Form.map_fst_eq_of_forall₂ {ρ : ExprId → ExprId} {form form' : Form (ExprId × α)}
    (hsnd : form.map Prod.snd = form'.map Prod.snd)
    (h : List.Forall₂ (fun x y => y.1 = ρ x.1) form.children form'.children) :
    form'.map Prod.fst = (form.map Prod.fst).map ρ := by
  refine eq_of_map_eq (f := fun _ => ()) ?_ ?_
  · have hshape := congrArg (map fun _ => ()) hsnd
    rw [map_map, map_map] at hshape
    rw [map_map, map_map, map_map]
    exact hshape.symm
  · rw [children_map, children_map, children_map, List.map_map]
    refine List.forall₂_eq_eq_eq ▸ ?_
    rw [List.forall₂_map_left_iff, List.forall₂_map_right_iff]
    exact h.flip

namespace Arena

variable {mark : ExprId → ι} {a b : Arena} {id id' : ExprId} {ids ids' : List ExprId} {t : Term ι}

/-- Two readings of one term are twins. -/
theorem Reads.twins (h : a.Reads mark id t ids) (h' : b.Reads mark id' t ids') :
    Twins mark a b ids ids' fun ρ => id' = ρ id := by
  induction t using Term.induction generalizing id id' ids ids' with
  | node m line form type ih =>
    obtain ⟨_, _, own, parts, hterm, rfl, hget, hparts⟩ := h.exists_form
    obtain ⟨_, _, own', parts', hterm', rfl, hget', hparts'⟩ := h'.exists_form
    obtain ⟨hmark, rfl, rfl, rfl⟩ := Term.node.inj hterm
    obtain ⟨hmark', rfl, hsnd, rfl⟩ := Term.node.inj hterm'
    -- the slots of the two nodes hold the same terms, one by one
    have hmatch : List.Forall₂ (fun x y : ExprId × Term ι => x.2 = y.2) parts.children
        parts'.children := by
      have hchildren : parts.children.map Prod.snd = parts'.children.map Prod.snd := by
        rw [← Form.children_map, ← Form.children_map, hsnd]
      rw [← List.forall₂_map_right_iff, ← List.forall₂_map_left_iff, hchildren]
      exact List.forall₂_same.mpr fun _ _ => rfl
    have hbelow : Twins mark a b own own' fun ρ =>
        List.Forall₂ (fun x y => y.1 = ρ x.1) parts.children parts'.children :=
      hparts.twins hmatch hparts' fun x hx y own own' hxy hread hread' =>
        ih x.2 (Form.mem_children_map hx) hread (hxy ▸ hread')
    -- the node itself comes first in both
    obtain ⟨front, hperm, hmarks, hall⟩ := hbelow
    refine ⟨id :: front, hperm.cons id, ?_, fun ρ hρ => ?_⟩
    · rw [List.map_cons, List.map_cons, hmarks, ← hmark, hmark']
    · rw [List.map_cons, List.cons.injEq] at hρ
      obtain ⟨hroot, hfront⟩ := hρ
      obtain ⟨hslots, hnodes⟩ := hall ρ hfront
      have hform : parts'.map Prod.fst = (parts.map Prod.fst).map ρ :=
        Form.map_fst_eq_of_forall₂ hsnd hslots
      refine ⟨hroot.symm, ?_⟩
      rw [List.forall_mem_cons]
      refine ⟨?_, hnodes⟩
      rw [hroot, hget, hget', hform]
      rfl

end Arena

/-- Where one list is another in a different order, a renaming takes the one to the other. It
changes no handle that is not in the lists. -/
theorem exists_equiv_of_perm [DecidableEq α] {xs ys : List α} (h : xs.Perm ys) (hnodup : xs.Nodup) :
    ∃ ρ : α ≃ α, xs.map ρ = ys ∧ ∀ x, x ∉ xs → ρ x = x := by
  induction h with
  | nil => exact ⟨.refl α, rfl, fun _ _ => rfl⟩
  | @cons x xs ys _ ih =>
    obtain ⟨hx, hnodup⟩ := List.nodup_cons.mp hnodup
    obtain ⟨ρ, hmap, hfixed⟩ := ih hnodup
    refine ⟨ρ, by rw [List.map_cons, hfixed x hx, hmap], fun z hz => hfixed z ?_⟩
    exact fun hmem => hz (List.mem_cons_of_mem x hmem)
  | swap x y xs =>
    obtain ⟨hy, hnodup⟩ := List.nodup_cons.mp hnodup
    obtain ⟨hx, -⟩ := List.nodup_cons.mp hnodup
    refine ⟨Equiv.swap x y, ?_, fun z hz => ?_⟩
    · have hrest (z : α) (hz : z ∈ xs) : Equiv.swap x y z = z :=
        Equiv.swap_apply_of_ne_of_ne (ne_of_mem_of_not_mem hz hx)
          (ne_of_mem_of_not_mem (List.mem_cons_of_mem x hz) hy)
      rw [List.map_cons, List.map_cons, Equiv.swap_apply_left, Equiv.swap_apply_right,
        List.map_congr_left hrest, List.map_id']
    · rw [List.mem_cons, List.mem_cons, not_or, not_or] at hz
      exact Equiv.swap_apply_of_ne_of_ne hz.2.1 hz.1
  | trans hxy _ ih ih' =>
    obtain ⟨ρ, hmap, hfixed⟩ := ih hnodup
    obtain ⟨ρ', hmap', hfixed'⟩ := ih' (hxy.nodup_iff.mp hnodup)
    refine ⟨ρ.trans ρ', ?_, fun z hz => ?_⟩
    · rw [← hmap', ← hmap, List.map_map]
      rfl
    · rw [Equiv.trans_apply, hfixed z hz, hfixed' z fun hmem => hz (hxy.mem_iff.mpr hmem)]

/-- A renaming that takes every node to its twin. It exists where the handles of the nodes are those
of the twins, in another order. -/
theorem Twins.exists_equiv {mark : ExprId → ι} {a b : Arena} {ids ids' : List ExprId}
    {rel : (ExprId → ExprId) → Prop} (h : Twins mark a b ids ids' rel) (hperm : ids.Perm ids')
    (hnodup : ids.Nodup) :
    ∃ ρ : ExprId ≃ ExprId, rel ρ ∧ (∀ x, x ∉ ids → ρ x = x) ∧
      ∀ x ∈ ids, mark (ρ x) = mark x ∧ b.get? (ρ x) = (a.get? x).map (Node.rename ρ) := by
  obtain ⟨own, hown, hmark, hall⟩ := h
  obtain ⟨ρ, hmap, hfixed⟩ := exists_equiv_of_perm (hown.trans hperm) (hown.nodup_iff.mpr hnodup)
  obtain ⟨hrel, hget⟩ := hall ρ hmap
  have hmarks : ∀ x ∈ own, mark (ρ x) = mark x := by
    rw [← hmap, List.map_map] at hmark
    exact fun x hx => (List.map_inj_left.mp hmark x hx).symm
  refine ⟨ρ, hrel, fun x hx => hfixed x fun hmem => hx (hown.mem_iff.mp hmem), fun x hx => ?_⟩
  have hx : x ∈ own := hown.mem_iff.mpr hx
  exact ⟨hmarks x hx, hget x hx⟩

end Lcpl
