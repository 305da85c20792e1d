import Lcpl.Proofs.Arena.Reads
import Lcpl.Proofs.Term.Sound

/-!
# Where a failure is reported

An elaboration that fails has failed at one node: the rule of that node reports the failure although
it accepts each part that it visits. All rules on the way down to this node are stopped by the part
that they visit last. Since a node is annotated only after its rule has succeeded, the nodes on the
way are left as they were.

## Main definitions

* `Term.Reports` — the way down to the node whose rule reports a failure

## Main results

* `Term.exists_reports` — every failure is reported somewhere
* `Term.Reports.exists_handles` — the nodes on the way down are left as they were
-/

namespace Lcpl

variable {ι : Type}

namespace Term

/-- Elaborates the parts that a rule visits, each in its scope. -/
def visited (Γ : Context) (made : ι) (parts : List (Term ι × Option (Scopes String Variable))) :
    List (Elaborated ι) :=
  parts.map fun part => part.1.elaborateIn Γ made part.2

/-- The elaboration of a term fails, and the path leads from its root down to the node whose rule
reports the failure. A path lists the marks of its nodes. -/
inductive Reports (Γ : Context) (made : ι) (failure : Failure) :
    Scopes String Variable → Term ι → List ι → Prop where
  /-- The rule fails, and all parts that it has visited were accepted. -/
  | here {locals mark line form type seen rest}
      (hparts : (form.scoped Γ line locals).children = seen ++ rest)
      (hrun : (Visit.recorded Γ made locals line (form.elaborate Γ made line locals)).runFrom [] =
        (.error failure, (visited Γ made seen).map Elaborated.term))
      (haccepted : Visit.Accepted (visited Γ made seen)) :
      Reports Γ made failure locals (.node mark line form type) [mark]
  /-- The rule fails because of the part that it has visited last. -/
  | inside {locals scope mark line form type seen part rest path}
      (hparts : (form.scoped Γ line locals).children = seen ++ (part, some scope) :: rest)
      (hrun : (Visit.recorded Γ made locals line (form.elaborate Γ made line locals)).runFrom [] =
        (.error failure,
          (visited Γ made (seen ++ [(part, some scope)])).map Elaborated.term))
      (haccepted : Visit.Accepted (visited Γ made seen))
      (hpart : Reports Γ made failure scope part path) :
      Reports Γ made failure locals (.node mark line form type) (mark :: path)

variable {Γ : Context} {N : ι → Naming} {made : ι} {locals : Scopes String Variable} {t : Term ι}
variable {failure : Failure}

theorem children_elaborate (form : Form (Term ι)) (line : Line) :
    (form.elaborate Γ made line locals).children =
      visited Γ made (form.scoped Γ line locals).children := by
  rw [Form.elaborate_eq_map, Form.children_map, visited]

/-- Every failure is reported by the rule of some node. -/
theorem exists_reports (hΓ : Γ.Sound) (hmade : (N made).made) (hN : t.Named N)
    (hlocals : Γ.SoundScopes locals) (h : (t.elaborate Γ made locals).result = .error failure) :
    ∃ path, Reports Γ made failure locals t path := by
  induction t using Term.induction generalizing locals with
  | node mark line form type ih =>
    have hrun := Visit.ensures_node hΓ hmade hN hlocals
    cases hN with
    | node holds hnamed =>
      have hstart := Visit.seen_nil (form.elaborate Γ made line locals).children
      rw [Term.elaborate] at h
      rcases hran : (Visit.recorded Γ made locals line
        (form.elaborate Γ made line locals)).runFrom [] with ⟨failure' | ⟨form', ty, type'⟩, w⟩
      · rw [hran] at h
        obtain rfl := Except.error.inj h
        obtain ⟨⟨front, rest, hfront, rfl, hcause⟩, -⟩ := hrun.error hstart hran
        rw [children_elaborate] at hfront
        obtain ⟨seen, pending, hsplit, rfl, -⟩ := List.map_eq_append_iff.mp hfront
        rcases hcause with haccepted | ⟨before, last, hlast, haccepted, hfailed⟩
        · exact ⟨[mark], .here hsplit hran haccepted⟩
        · -- the last part that was visited has a scope, so it has failed by itself
          obtain ⟨seen', lasts, rfl, rfl, hlasts⟩ := List.map_eq_append_iff.mp hlast
          obtain ⟨⟨part, scope?⟩, rfl, rfl⟩ := List.map_eq_singleton_iff.mp hlasts
          rw [List.append_assoc, List.singleton_append] at hsplit
          have hpart : (part, scope?) ∈ (form.scoped Γ line locals).children := by simp [hsplit]
          have hmem := Form.mem_children_of_scoped hpart
          cases scope? with
          | none => cases hfailed
          | some scope =>
            obtain ⟨path, hpath⟩ := ih part hmem (hnamed part hmem)
              (hlocals.of_mem_scoped hpart rfl) hfailed
            exact ⟨mark :: path, .inside hsplit hran haccepted hpath⟩
      · rw [hran] at h
        cases h

@[simp] theorem mark_elaborate (t : Term ι) (locals : Scopes String Variable) :
    (t.elaborate Γ made locals).term.mark = t.mark := by
  cases t with
  | node mark line form type =>
    rw [Term.elaborate]
    rcases (Visit.recorded Γ made locals line (form.elaborate Γ made line locals)).runFrom [] with
      ⟨failure | ⟨form', ty, type'⟩, w⟩
    · rfl
    · rfl

@[simp] theorem mark_elaborateIn (t : Term ι) (scope? : Option (Scopes String Variable)) :
    (t.elaborateIn Γ made scope?).term.mark = t.mark := by
  cases scope? with
  | none => rfl
  | some scope => exact mark_elaborate t scope

end Term

/-! ### In an arena -/

namespace Arena

variable {a b : Arena} {mark : ExprId → ι} {root : ExprId} {ids ids' : List ExprId}

theorem map_mark_children {form : Form (ExprId × Term ι)}
    (h : Jointly (fun part => a.Reads mark part.1 part.2) form.children ids) :
    (form.map Prod.fst).children.map mark = (form.map Prod.snd).children.map Term.mark := by
  rw [Form.children_map, Form.children_map, List.map_map, List.map_map]
  apply List.map_congr_left
  intro part hpart
  obtain ⟨own, hread, -⟩ := h.exists_of_mem hpart
  exact hread.mark_eq.symm

/-- Handles are told apart by their marks. -/
theorem eq_of_map_mark {handles handles' : List ExprId}
    (hmark : ∀ x ∈ handles, ∀ y, mark x = mark y → x = y)
    (h : handles.map mark = handles'.map mark) : handles = handles' := by
  induction handles generalizing handles' with
  | nil => exact (List.map_eq_nil_iff.mp h.symm).symm
  | cons x handles ih =>
    cases handles' with
    | nil => cases h
    | cons y handles' =>
      obtain ⟨hhead, htail⟩ := List.cons.inj h
      rw [hmark x List.mem_cons_self y hhead,
        ih (fun z hz => hmark z (List.mem_cons_of_mem x hz)) htail]

/-- The first parts of a node are replaced by others with the same marks. Then its slots hold what
they held. -/
theorem map_fst_eq_of_refill {form other : Form (ExprId × Term ι)} {front : List (Term ι)}
    (ha : Jointly (fun part => a.Reads mark part.1 part.2) form.children ids)
    (hb : Jointly (fun part => b.Reads mark part.1 part.2) other.children ids')
    (hmark : ∀ x ∈ ids, ∀ y, mark x = mark y → x = y)
    (hother : other.map Prod.snd = (form.map Prod.snd).refill front)
    (hfront : front.map Term.mark =
      ((form.map Prod.snd).children.map Term.mark).take front.length) :
    other.map Prod.fst = form.map Prod.fst := by
  -- seen by the marks of its parts, the form does not change
  have hmarks : (other.map Prod.snd).map Term.mark = (form.map Prod.snd).map Term.mark := by
    rw [hother, Form.map_refill, hfront, ← Form.children_map, Form.refill_take_children]
  have hshape : (other.map Prod.fst).map (fun _ => ()) = (form.map Prod.fst).map fun _ => () := by
    have := congrArg (Form.map fun _ => ()) hmarks
    simpa only [Form.map_map, Function.comp_def] using this
  have hmark : ∀ x ∈ (form.map Prod.fst).children, ∀ y, mark x = mark y → x = y := by
    intro x hx
    rw [Form.children_map] at hx
    obtain ⟨part, hpart, rfl⟩ := List.mem_map.mp hx
    obtain ⟨own, hread, hsub⟩ := ha.exists_of_mem hpart
    exact hmark part.1 (hsub hread.mem_self)
  refine Form.eq_of_map_eq hshape (eq_of_map_mark hmark ?_).symm
  rw [map_mark_children ha, map_mark_children hb, ← Form.children_map, ← hmarks, Form.children_map]

end Arena

namespace Term

variable {Γ : Context} {made : ι} {locals : Scopes String Variable} {t : Term ι} {failure : Failure}
variable {path : List ι} {a b : Arena} {mark : ExprId → ι} {root : ExprId} {ids ids' : List ExprId}

/-- A node whose rule has failed is left as it was. The parts that were visited are found in the
same slots, each as its own elaboration has left it. -/
theorem exists_forms_of_error {m : ι} {line : Line} {form : Form (Term ι)} {type : Option TypeName}
    {seen rest : List (Term ι × Option (Scopes String Variable))}
    (hparts : (form.scoped Γ line locals).children = seen ++ rest)
    (hrun : (Visit.recorded Γ made locals line (form.elaborate Γ made line locals)).runFrom [] =
      (.error failure, (visited Γ made seen).map Elaborated.term))
    (ha : a.Reads mark root (.node m line form type) ids)
    (hb : b.Reads mark root ((Term.node m line form type).elaborate Γ made locals).term ids')
    (hmark : ∀ x ∈ ids, ∀ y, mark x = mark y → x = y) :
    m = mark root ∧ b.get? root = a.get? root ∧
      ∀ (k : Nat) part scope?, seen[k]? = some (part, scope?) → ∃ id own own', own ⊆ ids ∧
        a.Reads mark id part own ∧ b.Reads mark id (part.elaborateIn Γ made scope?).term own' := by
  rw [Term.elaborate, hrun] at hb
  dsimp only [Term.leave] at hb
  set front := (visited Γ made seen).map Elaborated.term with hfront
  have hchildren : form.children = seen.map Prod.fst ++ rest.map Prod.fst := by
    rw [← List.map_append, ← hparts, ← Form.children_map, Form.scoped_map_fst]
  have hlength : front.length = seen.length := by simp [front, visited]
  have hmarks : front.map Term.mark = (form.children.map Term.mark).take front.length := by
    rw [hchildren, List.map_append, hlength, List.take_left' (by simp)]
    simp [front, visited, Function.comp_def]
  generalize hterm : Term.node m line (form.refill front) type = u at hb
  cases ha with
  | node formA hgetA hpartsA =>
    rename_i owned
    cases hb with
    | node formB hgetB hpartsB =>
      obtain ⟨-, rfl, hforms, rfl⟩ := Term.node.inj hterm
      have hmark : ∀ x ∈ owned, ∀ y, mark x = mark y → x = y :=
        fun x hx => hmark x (List.mem_cons_of_mem _ hx)
      have hslots := Arena.map_fst_eq_of_refill hpartsA hpartsB hmark hforms.symm hmarks
      refine ⟨rfl, by rw [hgetA, hgetB, hslots], fun k part scope? hk => ?_⟩
      -- the part at position `k` stands there in both forms, under the same handle
      have hk' : front[k]? = some (part.elaborateIn Γ made scope?).term := by
        simp [front, visited, hk]
      have hlt : k < front.length := (List.getElem?_eq_some_iff.mp hk').1
      have hpartA : (formA.children.map Prod.snd)[k]? = some part := by
        rw [← Form.children_map, hchildren,
          List.getElem?_append_left (by simpa [hlength] using hlt)]
        simp [hk]
      have hpartB : (formB.children.map Prod.snd)[k]? =
          some (part.elaborateIn Γ made scope?).term := by
        rw [← Form.children_map, ← hforms, Form.children_refill (by simp [hchildren, hlength]),
          List.getElem?_append_left hlt, hk']
      have hslot : (formB.children.map Prod.fst)[k]? = (formA.children.map Prod.fst)[k]? := by
        rw [← Form.children_map, ← Form.children_map, hslots]
      obtain ⟨⟨id, _⟩, hmemA, rfl⟩ := Option.map_eq_some_iff.mp (List.getElem?_map .. ▸ hpartA)
      obtain ⟨⟨id', _⟩, hmemB, hterm⟩ := Option.map_eq_some_iff.mp (List.getElem?_map .. ▸ hpartB)
      obtain rfl : id' = id := by simpa [hmemA, hmemB] using hslot
      obtain ⟨own, hreadA, hsub⟩ := hpartsA.exists_of_mem (List.mem_of_getElem? hmemA)
      obtain ⟨own', hreadB, -⟩ := hpartsB.exists_of_mem (List.mem_of_getElem? hmemB)
      exact ⟨id', own, own', List.Subset.trans hsub (List.subset_cons_self ..), hreadA,
        hterm ▸ hreadB⟩

/-- The nodes on the way down to the node that reports a failure are left as they were. -/
theorem Reports.exists_handles (h : Reports Γ made failure locals t path)
    (ha : a.Reads mark root t ids) (hb : b.Reads mark root (t.elaborate Γ made locals).term ids')
    (hmark : ∀ x ∈ ids, ∀ y, mark x = mark y → x = y) :
    ∃ handles : List ExprId, path = handles.map mark ∧
      ∀ x ∈ handles, x ∈ ids ∧ b.get? x = a.get? x := by
  induction h generalizing root ids ids' with
  | here hparts hrun haccepted =>
    obtain ⟨rfl, hroot, -⟩ := exists_forms_of_error hparts hrun ha hb hmark
    refine ⟨[root], rfl, ?_⟩
    intro x hx
    obtain rfl := List.mem_singleton.mp hx
    exact ⟨ha.mem_self, hroot⟩
  | @inside locals scope m line form type seen part rest path hparts hrun haccepted hpart ih =>
    rw [show seen ++ (part, some scope) :: rest = (seen ++ [(part, some scope)]) ++ rest by simp]
      at hparts
    -- the part that has failed is the last of those visited, and reads as it was left
    obtain ⟨rfl, hroot, hseen⟩ := exists_forms_of_error hparts hrun ha hb hmark
    obtain ⟨id, own, own', hsub, hread, hread'⟩ := hseen seen.length part (some scope) (by simp)
    obtain ⟨handles, rfl, hhandles⟩ := ih hread hread' fun x hx => hmark x (hsub hx)
    refine ⟨root :: handles, rfl, ?_⟩
    intro x hx
    rcases List.mem_cons.mp hx with rfl | hx
    · exact ⟨ha.mem_self, hroot⟩
    · exact ⟨hsub (hhandles x hx).1, (hhandles x hx).2⟩

end Term

end Lcpl
