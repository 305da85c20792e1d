import Lcpl.Proofs.Analysis.Accepted

/-!
# Resolution of names

What the names in an accepted program stand for, and what is recorded of them. A name that the check
leaves as it was written stands for the variable that its node records. The check changes two
things: an assignment to a qualified target loses the qualification, and a call without receiver
gets the receiver `self`. Such a name stands for something else if a variable of the same name is in
force: the attribute is hidden by a local definition or a parameter, and the receiver by any
variable named `self`.

## Main definitions

* `Context.Resolves` — a name stands for a recorded variable
* `Context.Hides` — a local definition or parameter of a name is in force
* `Program.Stable` — every name in an accepted program stands for what is recorded

## Main results

* `Arena.TypedAt.symbol`, `Arena.TypedAt.assignment` — what typed nodes record
* `Program.not_stable_hidden` — a name may stand for something else
* `Program.resolves_of_analyse` — which names do so
-/

namespace Lcpl

namespace Context

variable {Γ : Context} {locals : Scopes String Variable} {name : String} {found : Variable}
variable {recorded : Option VarRef}

/-- The name stands for the recorded variable. -/
def Resolves (Γ : Context) (locals : Scopes String Variable) (name : String)
    (recorded : Option VarRef) : Prop :=
  ∃ found, Γ.denoted? locals name = some found ∧ recorded = some found.ref

/-- A local definition or a parameter of the name is in force. -/
def Hides (Γ : Context) (locals : Scopes String Variable) (name : String) : Prop :=
  (locals.find? name).isSome ∨ (Γ.param? name).isSome

/-- The local definitions in force are recorded as such. -/
def LetBound (locals : Scopes String Variable) : Prop :=
  ∀ name found, locals.find? name = some found → ∃ line, found.ref = .letBound name line

theorem resolves_of_lookup? (h : Γ.lookup? locals name = some found)
    (hrecorded : recorded = some found.ref) : Γ.Resolves locals name recorded :=
  ⟨found, by rw [denoted?, h], hrecorded⟩

theorem LetBound.scopeOf (h : LetBound locals) (line : Line) (name typeName : String) :
    LetBound (Γ.scopeOf line name typeName locals) := by
  unfold Context.scopeOf
  split
  · intro other found hfound
    rw [Scopes.find?_define] at hfound
    split at hfound
    · next heq =>
      obtain rfl := Option.some_inj.mp hfound
      obtain rfl := eq_of_beq heq
      exact ⟨line, rfl⟩
    · exact h other found hfound
  · exact h

/-- Where nothing hides it, the attribute is what a name stands for. -/
theorem lookup?_of_not_hides (h : ¬ Γ.Hides locals name) :
    Γ.lookup? locals name = Γ.attribute? name := by
  rw [Hides, not_or, Option.not_isSome_iff_eq_none, Option.not_isSome_iff_eq_none] at h
  rw [lookup?, h.1, h.2]

/-- A local definition or a parameter is not recorded as an attribute. -/
theorem exists_lookup?_of_hides (hlocals : LetBound locals) (h : Γ.Hides locals name) :
    ∃ found, Γ.lookup? locals name = some found ∧
      ((∃ line, found.ref = .letBound name line) ∨ found.ref = .param name) := by
  unfold lookup?
  cases hfind : locals.find? name with
  | some found => exact ⟨found, rfl, .inl (hlocals name found hfind)⟩
  | none =>
    obtain ⟨found, hparam⟩ := Option.isSome_iff_exists.mp (h.resolve_left (by simp [hfind]))
    rw [hparam]
    refine ⟨found, rfl, .inr ?_⟩
    obtain ⟨param, hmem, rfl⟩ := Option.map_eq_some_iff.mp hparam
    have hname : param.name = name := by simpa using List.find?_some hmem
    rw [← hname]

theorem exists_ref_of_attribute? (h : Γ.attribute? name = some found) :
    ∃ owner attr, found.ref = .attribute owner attr := by
  obtain ⟨attr, -, howner⟩ := Option.bind_eq_some_iff.mp h
  obtain ⟨owner, -, rfl⟩ := Option.map_eq_some_iff.mp howner
  exact ⟨owner, attr.name, rfl⟩

/-- A recorded attribute is what its name stands for, unless something hides it. -/
theorem resolves_attribute_iff (hlocals : LetBound locals) (h : Γ.attribute? name = some found) :
    Γ.Resolves locals name (some found.ref) ↔ ¬ Γ.Hides locals name := by
  constructor
  · rintro ⟨other, hother, href⟩ hhides
    obtain ⟨hider, hlookup, hkind⟩ := exists_lookup?_of_hides hlocals hhides
    rw [denoted?, hlookup] at hother
    obtain rfl := Option.some_inj.mp hother
    obtain ⟨owner, attr, hattr⟩ := exists_ref_of_attribute? h
    rw [Option.some_inj.mp href] at hattr
    rcases hkind with ⟨line, hkind⟩ | hkind
    · cases hkind.symm.trans hattr
    · cases hkind.symm.trans hattr
  · intro hhides
    exact resolves_of_lookup? ((lookup?_of_not_hides hhides).trans h) rfl

/-- No variable is recorded as the receiver. -/
theorem ref_ne_receiver (hlocals : LetBound locals) (h : Γ.lookup? locals name = some found) :
    found.ref ≠ .receiver := by
  by_cases hhides : Γ.Hides locals name
  · obtain ⟨hider, hlookup, hkind⟩ := exists_lookup?_of_hides hlocals hhides
    obtain rfl := Option.some_inj.mp (h.symm.trans hlookup)
    rcases hkind with ⟨line, hkind⟩ | hkind
    · rw [hkind]
      nofun
    · rw [hkind]
      nofun
  · obtain ⟨owner, attr, hattr⟩ :=
      exists_ref_of_attribute? ((lookup?_of_not_hides hhides).symm.trans h)
    rw [hattr]
    nofun

/-- `self` is the receiver, unless something else has taken the name. -/
theorem resolves_receiver_iff (hlocals : LetBound locals) :
    Γ.Resolves locals Vocabulary.receiver (some .receiver) ↔
      Γ.lookup? locals Vocabulary.receiver = none := by
  constructor
  · rintro ⟨found, hfound, href⟩
    cases hlookup : Γ.lookup? locals Vocabulary.receiver with
    | none => rfl
    | some other =>
      rw [denoted?, hlookup] at hfound
      obtain rfl := Option.some_inj.mp hfound
      exact (ref_ne_receiver hlocals hlookup (Option.some_inj.mp href).symm).elim
  · intro hlookup
    exact ⟨_, by rw [denoted?, hlookup]; rfl, rfl⟩

end Context

namespace Arena

variable {a : Arena} {Γ : Context} {N : Naming} {root id : ExprId} {locals : Scopes String Variable}
variable {node : Node}

theorem Reaches.letBound (h : a.Reaches Γ root id locals) : Context.LetBound locals := by
  induction h with
  | root =>
    intro name found hfound
    simp at hfound
  | part _ _ hpart ih =>
    rcases Form.scope_of_mem_scoped hpart rfl with rfl | rfl | ⟨name, typeName, _, _, _, -, rfl⟩
    · exact ih
    · exact ih
    · exact ih.scopeOf _ name typeName

theorem TypedAt.symbol {name : String} {recorded : Option VarRef} (h : a.TypedAt Γ N id locals)
    (hget : a.get? id = some node) (hexpr : node.expr = .symbol name recorded) :
    N.used name ∧ Γ.Resolves locals name recorded ∨
      N.made ∧ name = Vocabulary.receiver ∧ recorded = some .receiver := by
  obtain ⟨_, ty, form, hget', hform, -, htyped, -⟩ := h
  obtain rfl := Option.some_inj.mp (hget.symm.trans hget')
  cases form with
  | symbol name' recorded' =>
    obtain ⟨rfl, rfl⟩ := Form.symbol.inj (hexpr.symm.trans hform)
    rcases htyped with ⟨hused, found, hfound, hrecorded, -⟩ | ⟨hmade, hname, hrecorded, -⟩
    · exact .inl ⟨hused, found, hfound, hrecorded⟩
    · exact .inr ⟨hmade, hname, hrecorded⟩
  | _ => cases hexpr.symm.trans hform

theorem TypedAt.assignment {target : String} {value : ExprId} {recorded : Option VarRef}
    (h : a.TypedAt Γ N id locals) (hget : a.get? id = some node)
    (hexpr : node.expr = .assignment target value recorded) :
    ∃ written found, N.target written ∧
      Body.assigned Γ locals written = (target, some found) ∧ recorded = some found.ref := by
  obtain ⟨_, ty, form, hget', hform, -, htyped, -⟩ := h
  obtain rfl := Option.some_inj.mp (hget.symm.trans hget')
  cases form with
  | assignment target' value' recorded' =>
    obtain ⟨rfl, -, rfl⟩ := Form.assignment.inj (hexpr.symm.trans hform)
    obtain ⟨written, found, hwritten, hassigned, hrecorded, -⟩ := htyped
    exact ⟨written, found, hwritten, hassigned, hrecorded⟩
  | _ => cases hexpr.symm.trans hform

end Arena

/-- The name of a variable, with what is recorded of it: of a symbol, or of the target of an
assignment. -/
def Form.variable? {κ : Type} : Form κ → Option (String × Option VarRef)
  | symbol name recorded => some (name, recorded)
  | assignment target _ recorded => some (target, recorded)
  | _ => none

namespace Program

variable {p : Program} {registry : Registry} {i : Nat} {c : Class} {f : Feature} {root : ExprId}

/-! ### Names that are hidden -/

/-- Every name below the root of a feature stands for the variable that is recorded. -/
def Stable (p : Program) (registry : Registry) : Prop :=
  ∀ (i : Nat) (c : Class) (f : Feature) (root : ExprId) (Γ : Context),
    p.analyse.program.classes[i]? = some c → f ∈ c.features → f.root = some root →
    f.Sees registry (Analysis.classId i) Γ →
    ∀ id locals node name recorded, p.analyse.program.exprs.Reaches Γ root id locals →
      p.analyse.program.exprs.get? id = some node → node.expr.variable? = some (name, recorded) →
      Γ.Resolves locals name recorded

/-- An attribute that a local definition hides, and an assignment to it by its qualified name. -/
def hidden : Program where
  line := 1
  classes := [
    { line := 1, name := "Main", parent := none, recordedParent := none
      features := [
        .attribute (.declared 2 "x" "Int" none),
        .method (.declared 3 "main" [] "void" (some ⟨2⟩))] }]
  exprs := ⟨#[
    ⟨5, .intConstant 1, none⟩,
    ⟨5, .assignment "Main.x" ⟨0⟩ none, none⟩,
    ⟨4, .localDefinition "x" "Int" none (some ⟨1⟩) none, none⟩]⟩
  builtins := []

theorem checkForest_hidden : hidden.checkForest = .ok () := by decide +kernel

theorem exists_analyse_hidden : ∃ registry, hidden.analyse.result = .ok registry :=
  exists_of_toBool (by decide +kernel)

theorem exists_method_hidden :
    ∃ c, hidden.analyse.program.classes[0]? = some c ∧ ∃ f ∈ c.features, f.root = some ⟨2⟩ ∧
      f.method?.map (fun m => (m.line, m.params)) = some (3, []) := by
  have : ∃ c ∈ hidden.analyse.program.classes[0]?, ∃ f ∈ c.features, f.root = some ⟨2⟩ ∧
      f.method?.map (fun m => (m.line, m.params)) = some (3, []) := by decide +kernel
  exact this

/-- The assignment is left with the name of the local definition, and records the attribute. -/
theorem get?_hidden : hidden.analyse.program.exprs.get? ⟨1⟩ =
    some ⟨5, .assignment "x" ⟨0⟩ (some (.attribute "Main" "x")), some .int⟩ := by decide +kernel

/-- The assignment stands behind the local definition. -/
theorem reaches_hidden (Γ : Context) :
    hidden.analyse.program.exprs.Reaches Γ ⟨2⟩ ⟨1⟩ (Γ.scopeOf 4 "x" "Int" .empty) := by
  have hlet : hidden.analyse.program.exprs.get? ⟨2⟩ =
      some ⟨4, .localDefinition "x" "Int" none (some ⟨1⟩) (some .int), some .int⟩ := by
        decide +kernel
  exact .part .root hlet List.mem_cons_self

/-- Not every name in an accepted program stands for the variable that is recorded. -/
theorem not_stable_hidden :
    hidden.checkForest = .ok () ∧ ∃ registry, hidden.analyse.result = .ok registry ∧
      ¬ hidden.Stable registry := by
  obtain ⟨registry, hok⟩ := exists_analyse_hidden
  obtain ⟨c, hc, f, hf, hroot, hmethod⟩ := exists_method_hidden
  refine ⟨checkForest_hidden, registry, hok, fun hstable => ?_⟩
  have hsees : f.Sees registry (Analysis.classId 0) ⟨registry, Analysis.classId 0, 3, []⟩ := by
    rcases f with m | a
    · obtain ⟨hline, hparams⟩ := Prod.mk.inj (Option.some_inj.mp hmethod)
      exact ⟨[], by rw [hline], by rw [hparams]; exact .nil⟩
    · cases hmethod
  obtain ⟨found, hfound, href⟩ := hstable 0 c f ⟨2⟩ _ hc hf hroot hsees ⟨1⟩ _ _ "x" _
    (reaches_hidden _) get?_hidden rfl
  have hlookup : Context.lookup? ⟨registry, Analysis.classId 0, 3, []⟩
      (Context.scopeOf ⟨registry, Analysis.classId 0, 3, []⟩ 4 "x" "Int" .empty) "x" =
      some (.letBound "x" 4 .int) := rfl
  rw [Context.denoted?, hlookup] at hfound
  obtain rfl := Option.some_inj.mp hfound
  cases href

/-! ### What stands for what -/

/-- Before the analysis, the node was an assignment to the target. -/
def Assigns (p : Program) (id : ExprId) (target : String) : Prop :=
  ∃ node value recorded, p.exprs.get? id = some node ∧
    node.expr = .assignment target value recorded

/-- What is known of the names in a node by its handle. There is none if the analysis made the
node. -/
def written (p : Program) : Option ExprId → Naming
  | some id => ⟨p.Assigns id, fun _ => True, fun _ => True, False⟩
  | none => ⟨fun _ => False, fun _ => False, fun _ => False, True⟩

theorem holds_written {id : ExprId} {node : Node} (h : p.exprs.get? id = some node) :
    (p.written (p.original? id)).Holds node.expr := by
  rw [original?, if_pos (Arena.lt_of_get? h)]
  cases hexpr : node.expr with
  | assignment target value recorded => exact ⟨node, value, recorded, h, hexpr⟩
  | _ => trivial

/-- In an accepted program, a symbol that was there before the analysis stands for the variable that
it records, and so does an assignment whose target was not qualified. One that was qualified records
the attribute, and stands for it unless a local definition or a parameter hides it. A symbol that
the analysis made records the receiver, and stands for it unless a variable is named `self`. -/
theorem resolves_of_analyse (hforest : p.checkForest = .ok ()) (h : p.analyse.result = .ok registry)
    (hc : p.analyse.program.classes[i]? = some c) (hf : f ∈ c.features)
    (hroot : f.root = some root) :
    ∃ Γ, f.Sees registry (Analysis.classId i) Γ ∧ ∀ id locals node,
      p.analyse.program.exprs.Reaches Γ root id locals →
      p.analyse.program.exprs.get? id = some node →
      (∀ name recorded, node.expr = .symbol name recorded →
        if id.index < p.exprs.size then Γ.Resolves locals name recorded
        else name = Vocabulary.receiver ∧ recorded = some .receiver ∧
          (Γ.Resolves locals name recorded ↔ Γ.lookup? locals name = none)) ∧
      ∀ target value recorded, node.expr = .assignment target value recorded →
        ∃ before, p.Assigns id before ∧
          match Body.qualified? before with
          | none => target = before ∧ Γ.Resolves locals target recorded
          | some name => target = name ∧
              (∃ found, Γ.attribute? name = some found ∧ recorded = some found.ref) ∧
              (Γ.Resolves locals target recorded ↔ ¬ Γ.Hides locals target) := by
  obtain ⟨b, rfl, hnaming, hmark, hchecked⟩ := checked_of_analyse hforest h p.written none
    p.original? trivial (fun x hx => if_neg (Nat.not_lt.mpr hx)) fun _ _ => holds_written
  obtain ⟨ids, hids⟩ := hchecked i c hc f hf
  obtain ⟨Γ, t, ty, hsees, hread, ht, -⟩ := hids.exists_wellTyped hroot
  refine ⟨Γ, hsees, fun id locals node hreach hget => ?_⟩
  obtain ⟨t', ids', ty', hread', ht'⟩ := hreach.exists_wellTyped hread ht
  have htyped := hread'.typedAt ht'
  have hlocals := hreach.letBound
  rw [hnaming, hmark, original?] at htyped
  -- what is known of the names in a node depends on whether it was there before
  constructor
  · intro name recorded hexpr
    split at htyped
    · next hlt =>
      rw [if_pos hlt]
      exact ((htyped.symbol hget hexpr).resolve_right fun hmade => hmade.1).2
    · next hlt =>
      rw [if_neg hlt]
      obtain ⟨-, rfl, rfl⟩ := (htyped.symbol hget hexpr).resolve_left fun hused => hused.1
      exact ⟨rfl, rfl, Context.resolves_receiver_iff hlocals⟩
  · intro target value recorded hexpr
    split at htyped
    · obtain ⟨before, found, hbefore, hassigned, rfl⟩ := htyped.assignment hget hexpr
      refine ⟨before, hbefore, ?_⟩
      unfold Body.assigned at hassigned
      split at hassigned
      · next name hqualified =>
        obtain ⟨rfl, hattr⟩ := Prod.mk.inj hassigned
        rw [hqualified]
        exact ⟨rfl, ⟨found, hattr, rfl⟩, Context.resolves_attribute_iff hlocals hattr⟩
      · next hqualified =>
        obtain ⟨rfl, hlookup⟩ := Prod.mk.inj hassigned
        rw [hqualified]
        exact ⟨rfl, Context.resolves_of_lookup? hlookup rfl⟩
    · -- no assignment is made
      obtain ⟨before, found, hbefore, -⟩ := htyped.assignment hget hexpr
      exact hbefore.elim

/-- The hidden attribute is recorded, and is not what the name stands for. -/
theorem resolves_of_analyse_hidden :
    hidden.checkForest = .ok () ∧ ∃ registry c, hidden.analyse.result = .ok registry ∧
      hidden.analyse.program.classes[0]? = some c ∧ ∃ f ∈ c.features, f.root = some ⟨2⟩ ∧
      ∃ Γ : Context, (∃ found, Γ.attribute? "x" = some found ∧ found.ref = .attribute "Main" "x") ∧
        ¬ Γ.Resolves (Γ.scopeOf 4 "x" "Int" .empty) "x" (some (.attribute "Main" "x")) := by
  obtain ⟨registry, hok⟩ := exists_analyse_hidden
  obtain ⟨c, hc, f, hf, hroot, -⟩ := exists_method_hidden
  obtain ⟨Γ, -, hnodes⟩ := resolves_of_analyse checkForest_hidden hok hc hf hroot
  obtain ⟨before, ⟨node, value, recorded, hget, hexpr⟩, hresolves⟩ :=
    (hnodes ⟨1⟩ _ _ (reaches_hidden Γ) get?_hidden).2 "x" ⟨0⟩ _ rfl
  obtain rfl : Node.mk 5 (.assignment "Main.x" ⟨0⟩ none) none = node := Option.some_inj.mp hget
  obtain ⟨rfl, -, -⟩ := Form.assignment.inj hexpr
  rw [show Body.qualified? "Main.x" = some "x" by decide +kernel] at hresolves
  obtain ⟨-, ⟨found, hattr, href⟩, hiff⟩ := hresolves
  refine ⟨checkForest_hidden, registry, c, hok, hc, f, hf, hroot, Γ,
    ⟨found, hattr, (Option.some_inj.mp href).symm⟩, fun hx => hiff.mp hx (.inl rfl)⟩

end Program

end Lcpl
