import Lcpl.Body.Session
import Lcpl.Proofs.Arena.Reachable
import Lcpl.Proofs.Registry.Descent
import Lcpl.Proofs.Tree.Bare

/-!
# Annotations and wrappings

Analysis does not rewrite a program, it annotates it. A node keeps its line and its form; what may
change are the annotations of the form, the recorded type, and the slots for its parts, each of
which may be pointed at a cast around the part that it held. Two forms are treated in a way of their
own: a call without receiver is given one, and the target of an assignment loses its qualification.
New nodes are those casts and receivers.

What a run may touch is given by a set of nodes, each with the class in whose body it stands. Runs
that touch different nodes compose.

## Main definitions

* `Form.shape` — what is left of a form without its annotations and parts
* `Registry.Widens` — the conversions that a cast is made for
* `Arena.LeadsTo` — a slot that holds a node, or a cast around it
* `Arena.Reworks` — what may become of the expression of a node
* `Arena.Made` — the nodes that analysis makes
* `Arena.Annotates` — a change that touches given nodes only, and annotates them

## Main results

* `Arena.Annotates.trans` — changes that touch different nodes compose
* `Arena.Annotates.alloc`, `Arena.Annotates.set` — new nodes, and the annotation of a single node
-/

namespace Lcpl

/-- What is left of a form without its annotations and parts. Of the parts it says only which there
are. -/
def Form.shape {κ : Type} (form : Form κ) : Form Unit := form.bare.map fun _ => ()

/-- A value of type `source` becomes one of type `target` by a cast: a number becomes a text, and an
object is seen as one of a class further up. -/
inductive Registry.Widens (registry : Registry) : Ty → Ty → Prop where
  | text : Widens registry .int .string
  | upcast {id ancestor} (h : registry.Descends id ancestor) :
      Widens registry (.object id) (.object ancestor)

theorem Registry.widens_of_conversion? {registry : Registry} {source target target' : Ty}
    (h : registry.conversion? source target = some (.cast target')) :
    registry.Widens source target' := by
  unfold conversion? at h
  split at h
  · cases h
  · split at h
    · cases h
    · split at h
      · next hstring =>
        cases h
        rw [hstring]
        exact .text
      · cases h
    · split at h
      · next hancestor =>
        cases h
        exact .upcast (isStrictAncestor_iff.mp hancestor)
      · cases h
    · cases h

namespace Arena

/-! ### What may become of a node -/

/-- The slot holds the node, or a cast around it that was appended behind the first `n` nodes. -/
def LeadsTo (a : Arena) (n : Nat) (slot id : ExprId) : Prop :=
  slot = id ∨ n ≤ slot.index ∧
    ∃ line typeName type, a.get? slot = some ⟨line, .cast typeName id, type⟩

/-- The slot holds a receiver of the class `k` that was appended behind the first `n` nodes. -/
def HoldsReceiver (registry : Registry) (a : Arena) (n : Nat) (k : ClassId)
    (slot : ExprId) : Prop :=
  n ≤ slot.index ∧ ∃ line type, registry.label? (.object k) = some type ∧
    a.get? slot = some ⟨line, .symbol Vocabulary.receiver (some .receiver), some type⟩

/-- What may become of an expression in the body of the class `k`, when nodes are appended behind
the first `n`. -/
inductive Reworks (registry : Registry) (a : Arena) (n : Nat) (k : ClassId) :
    Expr → Expr → Prop where
  /-- The annotations change, and slots are pointed at casts around what they held. -/
  | slots {expr expr' : Expr} (hshape : expr'.shape = expr.shape)
      (hchildren : List.Forall₂ (a.LeadsTo n) expr'.children expr.children) :
      Reworks registry a n k expr expr'
  /-- A call without receiver is given one. -/
  | receiver {name args args' ref ref' slot} (hslot : a.HoldsReceiver registry n k slot)
      (hargs : List.Forall₂ (a.LeadsTo n) args' args) :
      Reworks registry a n k (.dispatch none name args ref) (.dispatch (some slot) name args' ref')
  /-- The target of an assignment loses everything up to its first point. -/
  | qualified {target name value value' ref ref'} {front : List Char}
      (htarget : target.toList = front ++ '.' :: name.toList) (hfront : '.' ∉ front)
      (hvalue : a.LeadsTo n value' value) :
      Reworks registry a n k (.assignment target value ref) (.assignment name value' ref')

/-- A node that analysis makes, where the nodes in `W` are touched: the receiver of a call, or a
cast around a touched node that was there before. The cast has the type that it names, and the type
of the node inside widens to it. -/
inductive Made (registry : Registry) (W : ExprId → ClassId → Prop) (n : Nat) (a : Arena) :
    Node → Prop where
  | receiver {line k type} (hlabel : registry.label? (.object k) = some type) :
      Made registry W n a ⟨line, .symbol Vocabulary.receiver (some .receiver), some type⟩
  | cast {line child k source target type} (hchild : W child k) (hlt : child.index < n)
      (hlabel : registry.label? target = some type) (hrecords : a.Records registry child source)
      (hwidens : registry.Widens source target) :
      Made registry W n a ⟨line, .cast type.text child, some type⟩

/-- `b` is `a` after a change that annotates nodes in `W`, each in the body of its class, and
appends what it needs. -/
structure Annotates (registry : Registry) (W : ExprId → ClassId → Prop) (a b : Arena) : Prop where
  size_le : a.size ≤ b.size
  node : ∀ x node, a.get? x = some node → b.get? x = some node ∨ ∃ k expr type, W x k ∧
    b.get? x = some ⟨node.line, expr, type⟩ ∧ b.Reworks registry a.size k node.expr expr
  made : ∀ y node, a.size ≤ y.index → b.get? y = some node → Made registry W a.size b node

variable {registry : Registry} {a b c : Arena} {n n' : Nat} {k : ClassId} {slot id x : ExprId}
variable {expr expr' : Expr} {W W' : ExprId → ClassId → Prop} {node : Node}

/-! ### Nodes behind the first ones -/

/-- The nodes from the handle `n` on are still there. -/
def Retains (n : Nat) (a b : Arena) : Prop :=
  ∀ y node, n ≤ y.index → a.get? y = some node → b.get? y = some node

theorem get?_alloc_of_lt (hlt : x.index < b.size) : (b.alloc node).get? x = b.get? x := by
  have hne : x ≠ b.next := by
    intro heq
    rw [heq] at hlt
    exact absurd hlt (Nat.lt_irrefl _)
  rw [get?_alloc, if_neg hne]

theorem retains_alloc (n : Nat) (b : Arena) (node : Node) : Retains n b (b.alloc node) := by
  intro y other _ hget
  rw [get?_alloc_of_lt (lt_of_get? hget), hget]

theorem get?_set_of_ne {new : Node} (hne : x ≠ id) : (b.set id new).get? x = b.get? x := by
  rw [get?_set, if_neg fun h => hne h.1]

/-- Annotating an old node keeps the new ones. -/
theorem retains_set (hlt : id.index < n) (new : Node) : Retains n b (b.set id new) := by
  intro y node hle hget
  have hne : y ≠ id := by
    intro heq
    rw [heq] at hle
    omega
  rw [get?_set_of_ne hne, hget]

theorem LeadsTo.refl (a : Arena) (n : Nat) (id : ExprId) : a.LeadsTo n id id := .inl rfl

theorem LeadsTo.retained (h : a.LeadsTo n slot id) (hb : Retains n a b) : b.LeadsTo n slot id := by
  rcases h with h | ⟨hle, line, typeName, type, hget⟩
  · exact .inl h
  · exact .inr ⟨hle, line, typeName, type, hb slot _ hle hget⟩

theorem HoldsReceiver.retained (h : a.HoldsReceiver registry n k slot) (hb : Retains n a b) :
    b.HoldsReceiver registry n k slot := by
  obtain ⟨hle, line, type, hlabel, hget⟩ := h
  exact ⟨hle, line, type, hlabel, hb slot _ hle hget⟩

theorem forall₂_leadsTo_refl (ids : List ExprId) : List.Forall₂ (a.LeadsTo n) ids ids :=
  List.forall₂_same.mpr fun id _ => .refl a n id

theorem Reworks.refl (expr : Expr) : a.Reworks registry n k expr expr :=
  .slots rfl (forall₂_leadsTo_refl expr.children)

theorem Reworks.retained (h : a.Reworks registry n k expr expr') (hb : Retains n a b) :
    b.Reworks registry n k expr expr' := by
  cases h with
  | slots hshape hchildren => exact .slots hshape (hchildren.imp fun _ _ h => h.retained hb)
  | receiver hslot hargs =>
    exact .receiver (hslot.retained hb) (hargs.imp fun _ _ h => h.retained hb)
  | qualified htarget hfront hvalue => exact .qualified htarget hfront (hvalue.retained hb)

/-- What is appended behind more nodes is appended behind fewer. -/
theorem Reworks.of_le (h : a.Reworks registry n k expr expr') (hle : n' ≤ n) :
    a.Reworks registry n' k expr expr' := by
  have hleads : ∀ slot id, a.LeadsTo n slot id → a.LeadsTo n' slot id := by
    intro slot id hslot
    exact hslot.imp_right fun h => ⟨hle.trans h.1, h.2⟩
  cases h with
  | slots hshape hchildren => exact .slots hshape (hchildren.imp hleads)
  | receiver hslot hargs => exact .receiver ⟨hle.trans hslot.1, hslot.2⟩ (hargs.imp hleads)
  | qualified htarget hfront hvalue => exact .qualified htarget hfront (hleads _ _ hvalue)

/-! ### Composing changes -/

namespace Annotates

/-- A node that is not touched stays as it is. -/
theorem get?_eq (h : a.Annotates registry W b) (hlt : x.index < a.size) (hx : ∀ k, ¬ W x k) :
    b.get? x = a.get? x := by
  obtain ⟨node, hget⟩ := contains_iff_exists_get?.mp (contains_iff.mpr hlt)
  rcases h.node x node hget with hsame | ⟨k, -, -, hk, -⟩
  · rw [hsame, hget]
  · exact absurd hk (hx k)

theorem refl (registry : Registry) (W : ExprId → ClassId → Prop) (a : Arena) :
    a.Annotates registry W a where
  size_le := le_rfl
  node _ _ hget := .inl hget
  made _ _ hle hget := absurd (lt_of_get? hget) (Nat.not_lt.mpr hle)

/-- A change may be said to touch more nodes than it does. -/
theorem mono (h : a.Annotates registry W b) (hW : ∀ x k, W x k → W' x k) :
    a.Annotates registry W' b where
  size_le := h.size_le
  node x node hget := by
    rcases h.node x node hget with hsame | ⟨k, expr, type, hk, hget', hreworks⟩
    · exact .inl hsame
    · exact .inr ⟨k, expr, type, hW x k hk, hget', hreworks⟩
  made y node hle hget := by
    cases h.made y node hle hget with
    | receiver hlabel => exact .receiver hlabel
    | cast hchild hlt hlabel hrecords hwidens =>
      exact .cast (hW _ _ hchild) hlt hlabel hrecords hwidens

/-- A change of old nodes keeps the new ones. -/
theorem retains (h : b.Annotates registry W' c) (hW' : ∀ x k, W' x k → x.index < n) :
    Retains n b c := by
  intro y node hle hget
  rw [h.get?_eq (lt_of_get? hget) fun k hk => absurd (hW' y k hk) (Nat.not_lt.mpr hle)]
  exact hget

/-- Changes that touch different nodes compose. -/
theorem trans (h : a.Annotates registry W b) (h' : b.Annotates registry W' c)
    (hW' : ∀ x k, W' x k → x.index < a.size ∧ ∀ l, ¬ W x l) :
    a.Annotates registry (fun x k => W x k ∨ W' x k) c where
  size_le := h.size_le.trans h'.size_le
  node x node hget := by
    have hretains := h'.retains fun x k hk => (hW' x k hk).1
    rcases h.node x node hget with hsame | ⟨k, expr, type, hk, hget', hreworks⟩
    · rcases h'.node x node hsame with hsame' | ⟨k, expr, type, hk, hget', hreworks⟩
      · exact .inl hsame'
      · exact .inr ⟨k, expr, type, .inr hk, hget', hreworks.of_le h.size_le⟩
    · have hstays : c.get? x = b.get? x :=
        h'.get?_eq (lt_of_get? hget') fun l hl => (hW' x l hl).2 k hk
      exact .inr ⟨k, expr, type, .inl hk, hstays.trans hget', hreworks.retained hretains⟩
  made y node hle hget := by
    by_cases hnew : b.size ≤ y.index
    · -- a node of the second change, around a node that was there before the first
      cases h'.made y node hnew hget with
      | receiver hlabel => exact .receiver hlabel
      | cast hchild _ hlabel hrecords hwidens =>
        exact .cast (.inr hchild) (hW' _ _ hchild).1 hlabel hrecords hwidens
    · have hstays : c.get? y = b.get? y :=
        h'.get?_eq (Nat.lt_of_not_le hnew) fun k hk => absurd (hW' y k hk).1 (Nat.not_lt.mpr hle)
      cases h.made y node hle (hstays.symm.trans hget) with
      | receiver hlabel => exact .receiver hlabel
      | @cast line child k source target type hchild hlt hlabel hrecords hwidens =>
        have hinside : c.get? child = b.get? child :=
          h'.get?_eq (hlt.trans_le h.size_le) fun l hl => (hW' child l hl).2 k hchild
        exact .cast (.inl hchild) hlt hlabel (hrecords.of_get? hinside) hwidens

/-- A new node may be appended. -/
theorem alloc (h : a.Annotates registry W b)
    (hmade : Made registry W a.size (b.alloc node) node) :
    a.Annotates registry W (b.alloc node) where
  size_le := h.size_le.trans (by simp)
  node x old hget := by
    have hlt : x.index < b.size := (lt_of_get? hget).trans_le h.size_le
    rw [get?_alloc_of_lt hlt]
    refine (h.node x old hget).imp_right ?_
    rintro ⟨k, expr, type, hk, hget', hreworks⟩
    exact ⟨k, expr, type, hk, hget', hreworks.retained (retains_alloc _ b node)⟩
  made y other hle hget := by
    by_cases hy : y = b.next
    · rw [get?_alloc, if_pos hy] at hget
      obtain rfl := Option.some_inj.mp hget
      exact hmade
    · rw [get?_alloc, if_neg hy] at hget
      cases h.made y other hle hget with
      | receiver hlabel => exact .receiver hlabel
      | @cast line child k source target type hchild hlt hlabel hrecords hwidens =>
        -- what the cast stands around is not the new node
        have hinside : (b.alloc node).get? child = b.get? child :=
          get?_alloc_of_lt (hlt.trans_le h.size_le)
        exact .cast hchild hlt hlabel (hrecords.of_get? hinside) hwidens

/-- A node that was not touched so far may be annotated. -/
theorem set (h : a.Annotates registry W b) (hid : ∀ k, ¬ W id k) {line : Line} {expr expr' : Expr}
    {type type' : Option TypeName} (hget : a.get? id = some ⟨line, expr, type⟩)
    (hreworks : b.Reworks registry a.size k expr expr') :
    a.Annotates registry (fun x l => W x l ∨ x = id ∧ l = k) (b.set id ⟨line, expr', type'⟩) where
  size_le := by simpa using h.size_le
  node x old hold := by
    have hretains := retains_set (b := b) (lt_of_get? hget) ⟨line, expr', type'⟩
    by_cases hx : x = id
    · subst hx
      obtain rfl := Option.some_inj.mp (hget.symm.trans hold)
      refine .inr ⟨k, expr', type', .inr ⟨rfl, rfl⟩, ?_, hreworks.retained hretains⟩
      rw [get?_set, if_pos ⟨rfl, (lt_of_get? hget).trans_le h.size_le⟩]
    · rw [get?_set_of_ne hx]
      refine (h.node x old hold).imp_right ?_
      rintro ⟨l, expr, type, hl, hget', hreworks'⟩
      exact ⟨l, expr, type, .inl hl, hget', hreworks'.retained hretains⟩
  made y node hle hy := by
    have hne : y ≠ id := by
      intro heq
      have := lt_of_get? hget
      rw [heq] at hle
      omega
    rw [get?_set_of_ne hne] at hy
    cases h.made y node hle hy with
    | receiver hlabel => exact .receiver hlabel
    | @cast line child l source target type hchild hlt hlabel hrecords hwidens =>
      -- a cast stands around a node that was touched
      have hinside : child ≠ id := by
        intro heq
        exact hid l (heq ▸ hchild)
      exact .cast (.inl hchild) hlt hlabel (hrecords.of_get? (get?_set_of_ne hinside)) hwidens

end Annotates

end Arena

end Lcpl
