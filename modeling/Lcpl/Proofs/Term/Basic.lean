import Mathlib.Data.List.Basic
import Mathlib.Logic.Function.Basic
import Lcpl.Tree.Expr

/-!
# Terms

A term is an expression as a tree: its parts are terms, not handles. Each node has a mark of some
kind `ι`. With the handles of an arena for marks, a term says which node of the arena each of its
nodes is; with `Unit`, it is a tree and nothing else.

## Main definitions

* `Term` — expressions as trees
* `Form.map` — the same form over other parts
* `Form.refill` — a form whose first parts are replaced

## Main results

* `Term.induction` — induction over a term, with the hypothesis for each of its parts
* `Form.eq_of_map_eq` — a form is determined by its parts and its shape
* `Form.children_refill`, `Form.map_refill` — what `Form.refill` does to a form
* `Form.exists_of_children`, `Form.exists_zip` — forms over given parts, and over pairs of parts
-/

namespace Lcpl

/-- An expression as a tree, with a mark on each node. -/
inductive Term (ι : Type) where
  | node (mark : ι) (line : Line) (form : Form (Term ι)) (type : Option TypeName)

variable {ι κ κ' κ'' : Type}

namespace Term

/-- The line of a term. -/
def line : Term ι → Line
  | node _ line _ _ => line

/-- The type recorded in a term. -/
def type : Term ι → Option TypeName
  | node _ _ _ type => type

/-- The mark of a term. -/
def mark : Term ι → ι
  | node mark _ _ _ => mark

/-- The form of a term. -/
def form : Term ι → Form (Term ι)
  | node _ _ form _ => form

theorem sizeOf_lt_of_mem_children {form : Form (Term ι)} {t : Term ι} (h : t ∈ form.children) :
    sizeOf t < sizeOf form := by
  cases form with
  | block items =>
    have : sizeOf t < sizeOf items := List.sizeOf_lt_of_mem h
    simp only [Form.block.sizeOf_spec]
    omega
  | dispatch receiver name args =>
    rcases List.mem_append.mp h with h | h
    · rw [Option.mem_toList] at h
      subst h
      simp only [Form.dispatch.sizeOf_spec, Option.some.sizeOf_spec]
      omega
    · have := List.sizeOf_lt_of_mem h
      simp only [Form.dispatch.sizeOf_spec]
      omega
  | staticDispatch receiver className name args =>
    rcases List.mem_cons.mp h with rfl | h
    · simp only [Form.staticDispatch.sizeOf_spec]
      omega
    · have := List.sizeOf_lt_of_mem h
      simp only [Form.staticDispatch.sizeOf_spec]
      omega
  | _ => grind [Form.children]

/-- Induction over a term: a property holds of every term if it holds of each term whose parts all
have it. -/
@[elab_as_elim]
theorem induction {motive : Term ι → Prop}
    (node : ∀ mark line form type, (∀ t ∈ form.children, motive t) →
      motive (.node mark line form type)) (t : Term ι) : motive t := by
  match t with
  | .node mark line form type =>
    refine node mark line form type fun t h => ?_
    have := sizeOf_lt_of_mem_children h
    exact induction node t
termination_by sizeOf t
decreasing_by
  simp only [Term.node.sizeOf_spec]
  omega

end Term

namespace Form

/-- The same form over other parts. -/
def map (f : κ → κ') : Form κ → Form κ'
  | block items => block (items.map f)
  | localDefinition name typeName init scope recordedType =>
      localDefinition name typeName (init.map f) (scope.map f) recordedType
  | dispatch receiver name args recordedMethod =>
      dispatch (receiver.map f) name (args.map f) recordedMethod
  | staticDispatch receiver className name args recordedReceiver recordedMethod =>
      staticDispatch (f receiver) className name (args.map f) recordedReceiver recordedMethod
  | conditional condition thenBranch elseBranch =>
      conditional (f condition) (f thenBranch) (elseBranch.map f)
  | whileLoop condition body => whileLoop (f condition) (f body)
  | cast typeName operand => cast typeName (f operand)
  | newObject typeName => newObject typeName
  | substring subject first last => substring (f subject) (f first) (f last)
  | assignment target value recordedVariable => assignment target (f value) recordedVariable
  | addition lhs rhs => addition (f lhs) (f rhs)
  | binary operator lhs rhs => binary operator (f lhs) (f rhs)
  | unary operator operand => unary operator (f operand)
  | equality lhs rhs => equality (f lhs) (f rhs)
  | symbol name recordedVariable => symbol name recordedVariable
  | intConstant value => intConstant value
  | stringConstant value => stringConstant value
  | voidConstant => voidConstant

@[simp] theorem children_map (f : κ → κ') (form : Form κ) :
    (form.map f).children = form.children.map f := by
  cases form <;> simp [map, children, Option.toList_map]

theorem mem_children_map {f : κ → κ'} {form : Form κ} {part : κ} (h : part ∈ form.children) :
    f part ∈ (form.map f).children := by
  rw [children_map]
  exact List.mem_map_of_mem h

theorem map_map (f : κ → κ') (g : κ' → κ'') (form : Form κ) :
    (form.map f).map g = form.map (g ∘ f) := by
  cases form <;> simp [map]

@[simp] theorem map_id (form : Form κ) : form.map id = form := by
  cases form <;> simp [map]

theorem map_congr {f g : κ → κ'} {form : Form κ} (h : ∀ x ∈ form.children, f x = g x) :
    form.map f = form.map g := by
  cases form with
  | localDefinition name typeName init scope =>
    cases init <;> cases scope <;> simp_all [map, children]
  | dispatch receiver name args => cases receiver <;> simp_all [map, children]
  | conditional condition thenBranch elseBranch => cases elseBranch <;> simp_all [map, children]
  | _ => simp_all [map, children]

/-- A form is determined by the parts and by what it is over any other parts. -/
theorem eq_of_map_eq {f : κ → κ'} {form other : Form κ} (h : form.map f = other.map f)
    (hc : form.children = other.children) : form = other := by
  cases form with
  | localDefinition name typeName init scope =>
    cases other with
    | localDefinition name' typeName' init' scope' =>
      cases init <;> cases init' <;> cases scope <;> cases scope' <;> simp_all [map, children]
    | _ => simp [map] at h
  | dispatch receiver name args =>
    cases other with
    | dispatch receiver' name' args' =>
      cases receiver <;> cases receiver' <;> simp_all [map, children]
    | _ => simp [map] at h
  | conditional condition thenBranch elseBranch =>
    cases other with
    | conditional condition' thenBranch' elseBranch' =>
      cases elseBranch <;> cases elseBranch' <;> simp_all [map, children]
    | _ => simp [map] at h
  | _ => cases other <;> simp_all [map, children]

/-- A form over pairs is determined by its two halves. -/
theorem eq_of_map_fst_snd {form other : Form (κ × κ')}
    (hfst : form.map Prod.fst = other.map Prod.fst)
    (hsnd : form.map Prod.snd = other.map Prod.snd) : form = other := by
  refine eq_of_map_eq hfst ?_
  have hzip (pairs : List (κ × κ')) : pairs = (pairs.map Prod.fst).zip (pairs.map Prod.snd) :=
    List.zip_of_prod rfl rfl
  rw [hzip form.children, hzip other.children, ← children_map, ← children_map, ← children_map,
    ← children_map, hfst, hsnd]

/-! ### Replacing the first parts -/

/-- Puts the front of a list in place of an optional part, and hands on what is left. -/
private def refillOption (part : Option κ) (front : List κ) : Option κ × List κ :=
  match part with
  | none => (none, front)
  | some old => (some (front.headD old), front.tail)

/-- Puts the elements of a list in place of the first parts of a form. -/
def refill (form : Form κ) (front : List κ) : Form κ :=
  match form with
  | block items => block (front ++ items.drop front.length)
  | localDefinition name typeName init scope recordedType =>
      let (init, front) := refillOption init front
      localDefinition name typeName init (refillOption scope front).1 recordedType
  | dispatch receiver name args recordedMethod =>
      let (receiver, front) := refillOption receiver front
      dispatch receiver name (front ++ args.drop front.length) recordedMethod
  | staticDispatch receiver className name args recordedReceiver recordedMethod =>
      staticDispatch (front.headD receiver) className name
        (front.tail ++ args.drop front.tail.length) recordedReceiver recordedMethod
  | conditional condition thenBranch elseBranch =>
      conditional (front.headD condition) (front.tail.headD thenBranch)
        (refillOption elseBranch front.tail.tail).1
  | whileLoop condition body => whileLoop (front.headD condition) (front.tail.headD body)
  | cast typeName operand => cast typeName (front.headD operand)
  | substring subject first last =>
      substring (front.headD subject) (front.tail.headD first) (front.tail.tail.headD last)
  | assignment target value recordedVariable =>
      assignment target (front.headD value) recordedVariable
  | addition lhs rhs => addition (front.headD lhs) (front.tail.headD rhs)
  | binary operator lhs rhs => binary operator (front.headD lhs) (front.tail.headD rhs)
  | unary operator operand => unary operator (front.headD operand)
  | equality lhs rhs => equality (front.headD lhs) (front.tail.headD rhs)
  | _ => form

variable {form : Form κ} {front : List κ}

theorem map_refill (f : κ → κ') :
    (form.refill front).map f = (form.map f).refill (front.map f) := by
  have hoption (part : Option κ) (front : List κ) :
      refillOption (part.map f) (front.map f) =
        ((refillOption part front).1.map f, (refillOption part front).2.map f) := by
    cases part <;> simp [refillOption]
  cases form <;> simp [refill, map, hoption, ← List.map_tail]

/-- Replacing parts by themselves changes nothing. -/
theorem refill_take_children (form : Form κ) (n : Nat) :
    form.refill (form.children.take n) = form := by
  have htake (items : List κ) (n : Nat) :
      items.take n ++ items.drop (min n items.length) = items := by
    rw [← List.length_take]
    exact List.prefix_iff_eq_append.mp (List.take_prefix n items)
  cases form with
  | localDefinition name typeName init scope =>
    cases init <;> cases scope <;> rcases n with _ | _ | n <;> simp [refill, children, refillOption]
  | dispatch receiver name args =>
    cases receiver <;> cases n <;> simp [refill, children, refillOption, htake]
  | conditional condition thenBranch elseBranch =>
    cases elseBranch <;> rcases n with _ | _ | _ | n <;> simp [refill, children, refillOption]
  | _ => rcases n with _ | _ | _ | n <;> simp [refill, children, htake]

/-- The new parts stand in front of those that were not replaced. -/
theorem children_refill (h : front.length ≤ form.children.length) :
    (form.refill front).children = front ++ form.children.drop front.length := by
  cases form with
  | block items => rfl
  | localDefinition name typeName init scope =>
    cases init <;> cases scope <;> rcases front with _ | ⟨a, _ | ⟨b, _ | ⟨c, rest⟩⟩⟩ <;>
      simp_all [children, refill, refillOption]
  | dispatch receiver name args =>
    cases receiver <;> cases front <;> simp_all [children, refill, refillOption]
  | staticDispatch receiver className name args =>
    cases front <;> simp_all [children, refill]
  | conditional condition thenBranch elseBranch =>
    -- a list that is too long is ruled out by its length
    cases elseBranch <;> rcases front with _ | ⟨a, _ | ⟨b, _ | ⟨c, _ | ⟨d, rest⟩⟩⟩⟩ <;>
      first
      | simp [children, refill, refillOption]; done
      | simp only [children, Option.toList, List.length_cons, List.length_nil] at h
        omega
  | _ =>
    rcases front with _ | ⟨a, _ | ⟨b, _ | ⟨c, _ | ⟨d, rest⟩⟩⟩⟩ <;>
      first
      | simp [children, refill]; done
      | simp only [children, List.length_cons, List.length_nil] at h
        omega

/-- Replacing parts twice by the same is replacing them once. -/
theorem refill_refill (h : front.length ≤ form.children.length) :
    (form.refill front).refill front = form.refill front := by
  have hfront : front = (form.refill front).children.take front.length := by
    rw [children_refill h, List.take_left]
  nth_rewrite 2 [hfront]
  exact refill_take_children ..

/-! ### Forms over given parts -/

/-- A form can be had over any parts that stand for its own. -/
theorem exists_of_children [Nonempty κ'] {f : κ' → κ} {parts : List κ'}
    (h : parts.map f = form.children) :
    ∃ form' : Form κ', form'.map f = form ∧ form'.children = parts := by
  let guess := form.map (Function.invFun f)
  have hguess : guess.map f = form := by
    rw [map_map]
    conv_rhs => rw [← map_id form]
    refine map_congr fun x hx => Function.invFun_eq ?_
    obtain ⟨part, -, rfl⟩ := List.mem_map.mp (h ▸ hx)
    exact ⟨part, rfl⟩
  have hlength : parts.length = guess.children.length := by
    rw [children_map, List.length_map, ← h, List.length_map]
  refine ⟨guess.refill parts, ?_, ?_⟩
  · rw [map_refill, hguess, h]
    have := refill_take_children form form.children.length
    rwa [List.take_length] at this
  · rw [children_refill (Nat.le_of_eq hlength), hlength, List.drop_length, List.append_nil]

/-- Two forms that differ in their parts only are halves of a form over pairs. -/
theorem exists_zip [Nonempty (κ × κ')] {other : Form κ'} {f : κ → κ''} {g : κ' → κ''}
    (h : form.map f = other.map g) :
    ∃ both : Form (κ × κ'), both.map Prod.fst = form ∧ both.map Prod.snd = other ∧
      ∀ pair ∈ both.children, f pair.1 = g pair.2 := by
  have hparts : form.children.map f = other.children.map g := by
    rw [← children_map, h, children_map]
  have hlength : form.children.length = other.children.length := by
    simpa using congrArg List.length hparts
  -- the form over the pairs is `form`, refilled with its parts beside those of `other`
  have hzip : (form.children.zip other.children).map Prod.fst = form.children :=
    List.map_fst_zip (Nat.le_of_eq hlength)
  obtain ⟨both, hfst, hchildren⟩ := exists_of_children hzip
  have hpairs : ∀ pair ∈ both.children, f pair.1 = g pair.2 := by
    intro pair hpair
    obtain ⟨i, hi⟩ := List.mem_iff_getElem?.mp (hchildren ▸ hpair)
    obtain ⟨hleft, hright⟩ := List.getElem?_zip_eq_some.mp hi
    have := congrArg (·[i]?) hparts
    simpa [hleft, hright] using this
  refine ⟨both, hfst, eq_of_map_eq (f := g) ?_ ?_, hpairs⟩
  · rw [← h, ← hfst, map_map, map_map]
    exact map_congr fun pair hpair => (hpairs pair hpair).symm
  · rw [children_map, hchildren, List.map_snd_zip (Nat.le_of_eq hlength.symm)]

end Form

end Lcpl
