import Lcpl.Proofs.Analysis.Declarations
import Lcpl.Proofs.Body.Simulation
import Lcpl.Proofs.Term.Sound

/-!
# Checking an expression is elaborating the term it reads as

The check of a node runs its rule and writes the node back. Put together with the check of its
parts, the check of an expression does to the arena what elaboration does to the term that the
expression reads as, whatever else the arena holds.

## Main definitions

* `Term.Within` — a term that is nested no deeper than a bound

## Main results

* `Body.simulates_checkBelow` — the check with a bound, on terms within it
* `Body.simulates_checkExpr` — the check of an expression
* `Body.checkExpr_refines_elaborate` — the same for trees without marks, with what is known of
  failures
-/

namespace Lcpl

variable {ι : Type}

/-- The term is nested no deeper than a bound. -/
def Term.Within : Nat → Term ι → Prop
  | 0, _ => False
  | depth + 1, t => ∀ part ∈ t.form.children, part.Within depth

/-- A term is nested no deeper than it has nodes. -/
theorem Arena.Reads.within {a : Arena} {mark : ExprId → ι} {id : ExprId} {t : Term ι}
    {ids : List ExprId} (h : a.Reads mark id t ids) {depth : Nat} (hdepth : ids.length ≤ depth) :
    t.Within depth := by
  induction t using Term.induction generalizing id ids depth with
  | node m line form type ih =>
    cases h with
    | node form hget hparts =>
      cases depth with
      | zero => simp at hdepth
      | succ depth =>
        intro part hpart
        obtain ⟨⟨child, t⟩, hmem, rfl⟩ := List.mem_map.mp (Form.children_map _ form ▸ hpart)
        obtain ⟨own, hread, hlength⟩ := hparts.exists_length_le hmem
        refine ih t hpart hread (hlength.trans ?_)
        simpa using hdepth

namespace Body

namespace Visiting

variable {v : Visiting ι} {recur : ExprId → Body Ty} {form : Form (ExprId × Term ι)} {line : Line}
variable {type : Option TypeName} {id : ExprId} {s : Session} {w : List (Term ι)}

/-- A rule, followed by the form in which its type is recorded. -/
theorem lockstep_recorded (form : Form (ExprId × Term ι)) (line : Line)
    (hsim : ∀ p ∈ form.children, v.Simulated recur p.2) :
    Step.Lockstep v.Left (v.At [] form.children)
      (do
        let (expr, ty) ← Body.elaborate v.Γ recur line (form.map Prod.fst)
        return (expr, ty, ← label v.Γ ty))
      (Visit.recorded v.Γ v.made v.locals line
        ((form.map Prod.snd).elaborate v.Γ v.made line v.locals))
      fun r r' s w => r.2 = r'.2 ∧ v.Finished (r.1, r.2.1) (r'.1, r'.2.1) s w := by
  refine .bind (lockstep_rule form line hsim) ?_
  rintro ⟨expr, ty⟩ ⟨form', ty'⟩
  refine .of_pre (fun s w h => h.1) ?_
  rintro (rfl : ty = ty')
  refine .bind_constant (Step.constant_demand ..) (Step.constant_demand ..) ?_ fun type _ => ?_
  · rintro s w ⟨-, form, -, -, slots, pending, -, h⟩
    exact h.left
  · exact .pure fun s w h => ⟨rfl, h⟩

/-- After a failure the node reads as its term with the visited parts replaced. -/
theorem Left.reads (h : v.Left s w) (hparts : v.parts = form.children)
    (hget : v.arena.get? id = some ⟨line, form.map Prod.fst, type⟩) (hid : id ∉ v.owned) :
    ∃ ids, s.arena.Reads v.mark id
        (.node (v.mark id) line ((form.map Prod.snd).refill w) type) (id :: ids) ∧
      v.arena.Grows v.owned s.arena ids := by
  obtain ⟨-, visited, ids, rfl, hhandles, hread, hgrows⟩ := h
  rw [hparts] at hhandles hread
  have hlength : visited.length ≤ form.children.length := by
    have := congrArg List.length hhandles
    simp only [List.length_map, List.length_append, List.length_drop] at this
    omega
  -- the node still holds the handles that it held before
  have hkept : (form.refill visited).map Prod.fst = form.map Prod.fst := by
    have hfront : visited.map Prod.fst = (form.map Prod.fst).children.take visited.length := by
      rw [Form.children_map, ← hhandles]
      simp
    rw [Form.map_refill, hfront, Form.refill_take_children]
  refine ⟨ids, ?_, hgrows⟩
  rw [← Form.map_refill]
  refine .node (form.refill visited) ?_ ?_
  · rw [hgrows.get?_eq id (Arena.lt_of_get? hget) hid, hget, hkept]
  · rw [Form.children_refill hlength]
    exact hread

/-- After a success the node is written back, and reads as the new form over the new parts. -/
theorem Finished.reads {r : Expr × Ty} {r' : Form (Term ι) × Ty} (h : v.Finished r r' s w)
    (hid : id ∉ v.owned) (hlt : id.index < v.arena.size) (line : Line) (type : TypeName) :
    s.scopes = v.locals ∧ s.arena.get? id = v.arena.get? id ∧ ∃ ids,
      (s.arena.set id ⟨line, r.1, some type⟩).Reads v.mark id
        (.node (v.mark id) line r'.1 (some type)) (id :: ids) ∧
      v.arena.Grows (id :: v.owned) (s.arena.set id ⟨line, r.1, some type⟩) (id :: ids) ∧
      s.arena.size + v.owned.length = v.arena.size + ids.length := by
  obtain ⟨-, form, hexpr, hform, slots, pending, hchildren, hscopes, visited, old, ids, rest,
    -, hp⟩ :=
    h
  -- the node is not below itself, so writing it back leaves the parts as they are
  have hnot : id ∉ ids ++ rest := hp.grows.not_mem hid hlt
  have hlt' : id.index < s.arena.size := hlt.trans_le hp.grows.size_le
  have hkept : ∀ x ∈ ids ++ rest,
      (s.arena.set id ⟨line, r.1, some type⟩).get? x = s.arena.get? x := by
    intro x hx
    rw [Arena.get?_set, if_neg]
    rintro ⟨rfl, -⟩
    exact hnot hx
  refine ⟨hscopes, hp.grows.get?_eq id hlt hid, ids ++ rest, ?_, ?_, ?_⟩
  · rw [hform]
    refine .node form ?_ ?_
    · rw [Arena.get?_set, if_pos ⟨rfl, hlt'⟩, hexpr]
    · rw [hchildren]
      refine Arena.ReadsAll.of_get? ?_ hkept
      exact Jointly.append_iff.mpr ⟨ids, rest, rfl, hp.slots_read, hp.pending_reads⟩
  · have hgrows := hp.grows.cons hid hlt
    exact hgrows.trans (.set hgrows.nodup List.mem_cons_self _)
  · rw [hp.count, List.length_append]

end Visiting

variable {Γ : Context} {made : ι} {mark : ExprId → ι} {t : Term ι}

/-- Checking a node is running its rule, and writing the node back. -/
theorem runFrom_checkBelow_succ (depth : Nat) (id : ExprId) (s : Session) {node : Node}
    (hget : s.arena.get? id = some node) :
    (checkBelow Γ (depth + 1) id).runFrom s =
      ((do
        let (expr, ty) ← elaborate Γ (checkBelow Γ depth) node.line node.expr
        return (expr, ty, ← label Γ ty) : Body (Expr × Ty × TypeName)) >>=
          fun (expr, ty, type) => do
          record id expr type
          return ty).runFrom
        { s with log := s.log.push (.exprVisited node.expr.kind id node.line) } := by
  rw [checkBelow, Step.runFrom_bind_of_ok (Visiting.runFrom_node hget)]
  simp only [bind_assoc, pure_bind]
  rfl

theorem runFrom_record {id : ExprId} {s : Session} {node : Node}
    (hget : s.arena.get? id = some node) (expr : Expr) (type : TypeName) :
    (record id expr type).runFrom s =
      (.ok (), { s with arena := s.arena.set id ⟨node.line, expr, some type⟩ }) := by
  rw [record, Step.runFrom_bind_of_ok (Visiting.runFrom_node hget), Step.runFrom_modify]

/-- What the check of a node ensures, given what its rule ensures. The node is written back when its
type is known, so it has to be there still. -/
theorem ensures_checkBelow_succ {depth : Nat} {id : ExprId} {s : Session} {node : Node}
    (hget : s.arena.get? id = some node) {finished : Expr × Ty → Session → Prop}
    {failed : Failure → Session → Prop} {post : Ty → Session → Prop}
    (hrule : Step.Ensures
      (fun entered => entered =
        { s with log := s.log.push (.exprVisited node.expr.kind id node.line) })
      (elaborate Γ (checkBelow Γ depth) node.line node.expr) finished failed)
    (hfailed : ∀ r s', finished r s' → ∀ failure, failed failure s')
    (hkept : ∀ r s', finished r s' → s'.arena.get? id = some node)
    (hrecord : ∀ expr ty type s', finished (expr, ty) s' → Γ.registry.label? ty = some type →
      post ty { s' with arena := s'.arena.set id ⟨node.line, expr, some type⟩ }) :
    Step.Ensures (fun before => before = s) (checkBelow Γ (depth + 1) id) post failed := by
  intro before hbefore
  rw [hbefore, runFrom_checkBelow_succ depth id s hget]
  simp only [bind_assoc, pure_bind]
  refine (hrule.bind fun r => ?_) _ rfl
  obtain ⟨expr, ty⟩ := r
  refine .bind_demand_cases (fun failure s' h => hfailed _ s' h failure) fun type hlabel => ?_
  intro s' h
  rw [Step.runFrom_bind_of_ok (runFrom_record (hkept _ s' h) expr type)]
  exact hrecord expr ty type s' h hlabel

/-- On terms within the bound, the check does what elaboration does. -/
theorem simulates_checkBelow (depth : Nat) (h : t.Within depth) :
    Simulates Γ made mark (checkBelow Γ depth) t := by
  induction depth generalizing t with
  | zero => exact h.elim
  | succ depth ih =>
    intro a id ids locals log hread hnodup hnew
    cases hread with
    | node form hget hparts =>
      rename_i line type owned
      obtain ⟨hid, hnodup⟩ := List.nodup_cons.mp hnodup
      have hlt : id.index < a.size := Arena.lt_of_get? hget
      let v : Visiting ι := ⟨Γ, made, mark, locals, a, form.children, owned, hnew⟩
      have hsim : ∀ p ∈ form.children, v.Simulated (checkBelow Γ depth) p.2 :=
        fun p hp => ih (h p.2 (Form.mem_children_map hp))
      -- at first no part is visited, and all of them are as they were read
      have hat (log : Array Event) : v.At [] form.children ⟨a, locals, log⟩ [] :=
        ⟨rfl, [], [], [], owned, rfl, rfl, rfl, .nil, .nil, hparts, .slnil,
          .refl hnodup, by simp [v]⟩
      have hrun := (Visiting.lockstep_recorded form line hsim _ _
        (hat (log.push (.exprVisited (form.map Prod.fst).kind id line)))).cases
      rw [runFrom_checkBelow_succ depth id _ hget, Term.elaborate]
      rcases hrun with ⟨⟨expr, ty, type⟩, ⟨form', ty', type'⟩, s, w, hrun, hvisit, htypes, hfin⟩ |
        ⟨failure, s, w, hrun, hvisit, hleft⟩
      · obtain ⟨rfl, rfl⟩ := Prod.mk.inj htypes
        obtain ⟨hscopes, hkept, ids, hreads, hgrows, hcount⟩ := hfin.reads hid hlt line type
        rw [Step.runFrom_bind_of_ok hrun,
          Step.runFrom_bind_of_ok (runFrom_record (hkept.trans hget) ..), hvisit]
        refine ⟨_, s.log, id :: ids, ?_, hreads, hgrows, fun _ _ => ?_⟩
        · rw [← show s.scopes = locals from hscopes]
          rfl
        · have : s.arena.size + owned.length = a.size + ids.length := hcount
          simp only [Arena.size_set, List.length_cons]
          omega
      · obtain ⟨ids, hreads, hgrows⟩ := hleft.reads rfl hget hid
        rw [Step.runFrom_bind_of_error hrun, hvisit]
        refine ⟨s.arena, s.log, id :: ids, ?_, hreads, hgrows.cons hid hlt, fun _ h => by cases h⟩
        · rw [← show s.scopes = locals from hleft.1]
          rfl

/-- The check of an expression does what elaboration does to the term it reads as: a tree has no
path that is longer than its arena. -/
theorem simulates_checkExpr : Simulates Γ made mark (checkExpr Γ) t := by
  intro a id ids locals log hread hnodup hnew
  rw [checkExpr, Step.runFrom_bind_of_ok (Step.runFrom_get _)]
  generalize spareLevels = levels
  have hwithin : t.Within (a.size + levels) :=
    hread.within ((hread.length_le hnodup).trans (Nat.le_add_right ..))
  exact simulates_checkBelow _ hwithin a id ids locals log hread hnodup hnew

/-- The check of an expression whose nodes form a tree ends as the elaboration of that tree does:
with the same type, or with the same failure. Afterwards the expression reads as the tree that
elaboration leaves, and nodes outside the tree are as they were. With the registry of a program, the
failure is a located error. -/
theorem checkExpr_refines_elaborate {a : Arena} {root : ExprId} {t : Term Unit}
    {ids : List ExprId} (hread : a.Reads (fun _ => ()) root t ids) (hnodup : ids.Nodup)
    (Γ : Context) (locals : Scopes String Variable) (log : Array Event) :
    (∃ b log' ids', (checkExpr Γ root).runFrom ⟨a, locals, log⟩ =
        ((t.elaborate Γ () locals).result, ⟨b, locals, log'⟩) ∧
      b.Reads (fun _ => ()) root (t.elaborate Γ () locals).term ids' ∧ ids'.Nodup ∧
      ∀ x, x.index < a.size → x ∉ ids → b.get? x = a.get? x) ∧
    ∀ p : Program, p.declarations = .ok Γ.registry →
      (∃ name, Γ.registry.name? Γ.currentClass = some name) →
      (∀ param ∈ Γ.params, Γ.registry.Declarable param.ty) → Γ.SoundScopes locals →
      ∀ f, (t.elaborate Γ () locals).result ≠ .error (.fault f) := by
  obtain ⟨b, log', ids', hrun, hreads, hgrows, -⟩ :=
    simulates_checkExpr a root ids locals log hread hnodup fun _ _ => rfl
  refine ⟨⟨b, log', ids', hrun, hreads, hgrows.nodup, hgrows.get?_eq⟩, ?_⟩
  intro p hp hcurrent hparams hlocals
  have hΓ : Γ.Sound := ⟨Program.coherent_of_declarations hp, hcurrent, hparams⟩
  exact (Term.good_elaborate hΓ trivial t.named_any hlocals).no_fault

/-- A number, a text, and their sum. -/
def sumNodes : Arena :=
  ⟨#[⟨1, .intConstant 7, none⟩, ⟨2, .stringConstant "a", none⟩, ⟨3, .addition ⟨0⟩ ⟨1⟩, none⟩]⟩

theorem checkExpr_refines_elaborate_sum :
    ∃ b log ids,
      (checkExpr ⟨.builtin, .object, 1, []⟩ ⟨2⟩).runFrom ⟨sumNodes, .empty, #[]⟩ =
        (.ok .string, ⟨b, .empty, log⟩) ∧
      b.Reads (fun _ => ()) ⟨2⟩
        (.node () 3
          (.addition
            (.node () 3 (.cast "String" (.node () 1 (.intConstant 7) (some .int)))
              (some (.object "String")))
            (.node () 2 (.stringConstant "a") (some (.object "String"))))
          (some (.object "String"))) ids := by
  have hlhs : sumNodes.Reads (fun _ => ()) ⟨0⟩ (.node () 1 (.intConstant 7) none) [⟨0⟩] :=
    .node (.intConstant 7) rfl .nil
  have hrhs : sumNodes.Reads (fun _ => ()) ⟨1⟩ (.node () 2 (.stringConstant "a") none) [⟨1⟩] :=
    .node (.stringConstant "a") rfl .nil
  have hread : sumNodes.Reads (fun _ => ()) ⟨2⟩
      (.node () 3 (.addition (.node () 1 (.intConstant 7) none)
        (.node () 2 (.stringConstant "a") none)) none) [⟨2⟩, ⟨0⟩, ⟨1⟩] :=
    .node (.addition (⟨0⟩, _) (⟨1⟩, _)) rfl
      (Jointly.cons_iff.mpr ⟨[⟨0⟩], [⟨1⟩], rfl, hlhs, Jointly.singleton_iff.mpr hrhs⟩)
  obtain ⟨⟨b, log, ids, hrun, hreads, -⟩, -⟩ :=
    checkExpr_refines_elaborate hread (by decide) ⟨.builtin, .object, 1, []⟩ .empty #[]
  exact ⟨b, log, ids, hrun, hreads⟩

end Body

end Lcpl
