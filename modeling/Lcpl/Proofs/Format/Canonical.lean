import Lcpl.Tree.Program
import Lcpl.Proofs.Tree.Forest

/-!
# Recorded types and handles

A type is written by its name, so a class that is named like another type is read as that type. Here
is what becomes of a program whose types are written and read, and where in a program types and
handles are.

## Main definitions

* `TypeName.canonical` — the type that is read where a type was written
* `Program.mapTypes`, `Program.types` — the recorded types of a program, replaced and listed
* `Program.handles` — the handles that occur in a program

## Main results

* `TypeName.canonical_eq_self_iff` — only a class with a reserved name is read as something else
* `Program.mapTypes_eq_self_iff` — a program stays the same if its recorded types do
-/

namespace Lcpl

namespace TypeName

/-- The type that is read where this one was written: a class with a reserved name is mistaken for
the type of that name. -/
def canonical : TypeName → TypeName
  | object name => ofText name
  | type => type

theorem ofText_text_eq_canonical (type : TypeName) : ofText type.text = type.canonical := by
  cases type <;> rfl

theorem canonical_ofText (name : String) : (ofText name).canonical = ofText name := by
  rw [← ofText_text_eq_canonical, text_ofText]

theorem canonical_eq_self_iff {type : TypeName} :
    type.canonical = type ↔ ∀ name, type = object name → IsClassName name := by
  constructor
  · rintro h name rfl
    -- the reserved names are read as types that are no classes
    refine ⟨?_, ?_, ?_⟩ <;> rintro rfl <;> cases h
  · intro h
    rw [← ofText_text_eq_canonical]
    exact ofText_text h

end TypeName

/-! ### Replacing types -/

section

variable (f : TypeName → TypeName)

/-- The expression with other recorded types. -/
def Expr.mapTypes : Expr → Expr
  | .localDefinition name typeName init scope recordedType =>
      .localDefinition name typeName init scope (recordedType.map f)
  | .staticDispatch receiver className name args recordedReceiver recordedMethod =>
      .staticDispatch receiver className name args (recordedReceiver.map f) recordedMethod
  | expr => expr

/-- The node with other recorded types. -/
def Node.mapTypes (node : Node) : Node :=
  { node with expr := Expr.mapTypes f node.expr, recordedType := node.recordedType.map f }

/-- The parameter with another recorded type. -/
def Param.mapTypes (param : Param) : Param :=
  { param with recordedType := param.recordedType.map f }

/-- The feature with other recorded types. -/
def Feature.mapTypes : Feature → Feature
  | .method m => .method { m with
      params := m.params.map (Param.mapTypes f), recordedReturn := m.recordedReturn.map f
      recordedSelf := m.recordedSelf.map (Param.mapTypes f) }
  | .attribute a => .attribute { a with
      recordedType := a.recordedType.map f, recordedSelf := a.recordedSelf.map (Param.mapTypes f) }

/-- The class with other recorded types. -/
def Class.mapTypes (c : Class) : Class := { c with features := c.features.map (Feature.mapTypes f) }

/-- The arena with other recorded types. -/
def Arena.mapTypes (a : Arena) : Arena := ⟨a.nodes.map (Node.mapTypes f)⟩

/-- The program with other recorded types. -/
def Program.mapTypes (p : Program) : Program :=
  { p with
    classes := p.classes.map (Class.mapTypes f), exprs := p.exprs.mapTypes f
    builtins := p.builtins.map (Class.mapTypes f) }

end

/-! ### Listing types and handles -/

/-- The recorded types of an expression. -/
def Expr.types : Expr → List TypeName
  | .localDefinition _ _ _ _ recordedType => recordedType.toList
  | .staticDispatch _ _ _ _ recordedReceiver _ => recordedReceiver.toList
  | _ => []

/-- The recorded types of a node. -/
def Node.types (node : Node) : List TypeName := node.expr.types ++ node.recordedType.toList

/-- The recorded type of a parameter. -/
def Param.types (param : Param) : List TypeName := param.recordedType.toList

/-- The recorded types of a feature. -/
def Feature.types : Feature → List TypeName
  | .method m => m.params.flatMap Param.types ++ m.recordedReturn.toList ++
      m.recordedSelf.toList.flatMap Param.types
  | .attribute a => a.recordedType.toList ++ a.recordedSelf.toList.flatMap Param.types

/-- The recorded types of a class. -/
def Class.types (c : Class) : List TypeName := c.features.flatMap Feature.types

/-- The recorded types of a program. -/
def Program.types (p : Program) : List TypeName :=
  p.classes.flatMap Class.types ++ p.exprs.nodes.toList.flatMap Node.types ++
    p.builtins.flatMap Class.types

/-- The handle fits into 64 bits. -/
def ExprId.Fits (id : ExprId) : Prop := id.index < UInt64.size

instance (id : ExprId) : Decidable id.Fits := inferInstanceAs (Decidable (_ < _))

/-- The handles that occur in a program: the parts of its nodes, and the roots of its features. -/
def Program.handles (p : Program) : List ExprId :=
  p.classes.flatMap Class.roots ++ p.exprs.nodes.toList.flatMap (fun node => node.expr.children) ++
    p.builtins.flatMap Class.roots

/-! ### Types that stay the same -/

section

variable {α : Type} {f : TypeName → TypeName} {g : α → α} {types : α → List TypeName}

theorem map_eq_self_iff {xs : List α} : xs.map g = xs ↔ ∀ x ∈ xs, g x = x := by
  nth_rewrite 2 [← List.map_id xs]
  rw [List.map_inj_left]
  rfl

theorem option_map_eq_self_iff {o : Option α} : o.map g = o ↔ ∀ x ∈ o.toList, g x = x := by
  cases o <;> simp

/-- What holds of each item holds of a list. -/
theorem map_eq_self_iff_of_types {xs : List α}
    (h : ∀ x, g x = x ↔ ∀ type ∈ types x, f type = type) :
    xs.map g = xs ↔ ∀ type ∈ xs.flatMap types, f type = type := by
  rw [map_eq_self_iff, List.forall_mem_flatMap]
  exact forall₂_congr fun x _ => h x

theorem Expr.mapTypes_eq_self_iff {e : Expr} :
    e.mapTypes f = e ↔ ∀ type ∈ e.types, f type = type := by
  cases e <;> simp [mapTypes, types, option_map_eq_self_iff]

theorem Node.mapTypes_eq_self_iff {node : Node} :
    node.mapTypes f = node ↔ ∀ type ∈ node.types, f type = type := by
  rw [types, List.forall_mem_append, ← Expr.mapTypes_eq_self_iff, ← option_map_eq_self_iff]
  cases node
  simp [mapTypes]

theorem Param.mapTypes_eq_self_iff {param : Param} :
    param.mapTypes f = param ↔ ∀ type ∈ param.types, f type = type := by
  rw [types, ← option_map_eq_self_iff]
  cases param
  simp [mapTypes]

theorem Feature.mapTypes_eq_self_iff {feature : Feature} :
    feature.mapTypes f = feature ↔ ∀ type ∈ feature.types, f type = type := by
  have hself {param : Option Param} : param.map (Param.mapTypes f) = param ↔
      ∀ type ∈ param.toList.flatMap Param.types, f type = type := by
    rw [option_map_eq_self_iff, List.forall_mem_flatMap]
    exact forall₂_congr fun _ _ => Param.mapTypes_eq_self_iff
  rcases feature with m | a
  · have hparams : m.params.map (Param.mapTypes f) = m.params ↔ _ :=
      map_eq_self_iff_of_types fun _ => Param.mapTypes_eq_self_iff
    rw [types, List.forall_mem_append, List.forall_mem_append, ← hself, ← option_map_eq_self_iff,
      ← hparams]
    cases m
    simp [mapTypes, and_assoc]
  · rw [types, List.forall_mem_append, ← hself, ← option_map_eq_self_iff]
    cases a
    simp [mapTypes]

theorem Class.mapTypes_eq_self_iff {c : Class} :
    c.mapTypes f = c ↔ ∀ type ∈ c.types, f type = type := by
  have hfeatures : c.features.map (Feature.mapTypes f) = c.features ↔ _ :=
    map_eq_self_iff_of_types fun _ => Feature.mapTypes_eq_self_iff
  rw [types, ← hfeatures]
  cases c
  simp [mapTypes]

/-- A program stays the same if and only if each of its recorded types does. -/
theorem Program.mapTypes_eq_self_iff {p : Program} :
    p.mapTypes f = p ↔ ∀ type ∈ p.types, f type = type := by
  have hclasses (classes : List Class) : classes.map (Class.mapTypes f) = classes ↔ _ :=
    map_eq_self_iff_of_types fun _ => Class.mapTypes_eq_self_iff
  have hnodes : p.exprs.nodes.toList.map (Node.mapTypes f) = p.exprs.nodes.toList ↔ _ :=
    map_eq_self_iff_of_types fun _ => Node.mapTypes_eq_self_iff
  have hexprs : p.exprs.mapTypes f = p.exprs ↔
      p.exprs.nodes.toList.map (Node.mapTypes f) = p.exprs.nodes.toList := by
    obtain ⟨⟨nodes⟩⟩ := p.exprs
    simp [Arena.mapTypes]
  rw [types, List.forall_mem_append, List.forall_mem_append, ← hclasses, ← hclasses, ← hnodes,
    ← hexprs]
  cases p
  simp [mapTypes, and_assoc]

end

end Lcpl
