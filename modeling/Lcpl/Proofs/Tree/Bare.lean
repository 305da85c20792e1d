import Lcpl.Tree.Program

/-!
# Programs without annotations

What is left of a program when everything that an analysis records is erased: the types of nodes,
what names and calls were resolved to, and the annotations of declarations.

## Main definitions

* `Form.bare`, `Node.bare`, `Arena.bare` — expressions without annotations
* `Feature.bare`, `Class.bare`, `Program.bare` — declarations without annotations

## Main results

* `Arena.get?_bare`, `Arena.bare_alloc`, `Arena.bare_set` — erasing goes along with the access to
  nodes
-/

namespace Lcpl

variable {κ : Type}

namespace Form

/-- A form without annotations. -/
def bare : Form κ → Form κ
  | localDefinition name typeName init scope _ => localDefinition name typeName init scope none
  | dispatch receiver name args _ => dispatch receiver name args none
  | staticDispatch receiver className name args _ _ =>
      staticDispatch receiver className name args none none
  | assignment target value _ => assignment target value none
  | symbol name _ => symbol name none
  | form => form

theorem kind_bare (form : Form κ) : form.bare.kind = form.kind := by
  cases form <;> rfl

end Form

/-- A node without annotations. -/
def Node.bare (node : Node) : Node := ⟨node.line, node.expr.bare, none⟩

theorem Node.line_eq_of_bare {node node' : Node} (h : node.bare = node'.bare) :
    node.line = node'.line := (Node.mk.inj h).1

theorem Node.expr_bare_eq_of_bare {node node' : Node} (h : node.bare = node'.bare) :
    node.expr.bare = node'.expr.bare := (Node.mk.inj h).2.1

namespace Arena

variable {a b : Arena} {id : ExprId} {node : Node}

/-- The nodes without annotations. -/
def bare (a : Arena) : Arena := ⟨a.nodes.map Node.bare⟩

@[simp] theorem size_bare : a.bare.size = a.size := by
  simp [size, bare]

theorem size_eq_of_bare (h : a.bare = b.bare) : a.size = b.size := by
  rw [← size_bare, h, size_bare]

theorem get?_bare : a.bare.get? id = (a.get? id).map Node.bare := by
  simp [get?, bare]

theorem bare_alloc : (a.alloc node).bare = a.bare.alloc node.bare := by
  simp [bare, alloc]

theorem bare_set : (a.set id node).bare = a.bare.set id node.bare := by
  simp [bare, set]

end Arena

/-- A parameter without annotation. -/
def Param.bare (param : Param) : Param := .declared param.line param.name param.typeName

/-- A feature without annotations. -/
def Feature.bare : Feature → Feature
  | .method m => .method (.declared m.line m.name (m.params.map Param.bare) m.returnType m.body)
  | .attribute a => .attribute (.declared a.line a.name a.typeName a.init)

/-- A class without annotations. -/
def Class.bare (c : Class) : Class :=
  { c with features := c.features.map Feature.bare, recordedParent := none }

/-- The program without annotations. -/
def Program.bare (p : Program) : Program :=
  { p with classes := p.classes.map Class.bare, exprs := p.exprs.bare, builtins := [] }

end Lcpl
