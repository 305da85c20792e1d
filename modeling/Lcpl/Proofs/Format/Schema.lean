import Mathlib.Data.List.Nodup
import Lcpl.Format.Decode
import Lcpl.Proofs.Json.Record

/-!
# Known fields

The values of a program are read as one of a few parts. Each part knows certain fields, for some
parts depending on the kind of the value. Nothing but the known fields matters to a reader: the
order of the members of an object and the unknown members do not, and a known field may not occur
twice. In an array, a known field is known by its place.

What may be done to a value without changing what is read from it is said by a relation, and so is
adding a field for the second time. Both go on inside the values of known fields, where these are
parts again.

## Main definitions

* `Schema.Part`, `Schema.Part.known` — the parts of a program, and the fields that they know
* `Schema.Edit` — permuting the members of an object, or dropping one that its part does not know
* `Schema.Repeat` — adding a second occurrence of a known field
* `Schema.Steady` — a reader that keeps its result under edits and fails where a field is repeated
* `Schema.ByFields` — the same of a record, by the values under known keys

## Main results

* `Schema.ByFields.seq` — reading one field after the other
* `Schema.Steady.of_record`, `Schema.Steady.of_forms` — a part is read by its known fields
-/

namespace Lcpl.Schema

open Json (Members Record values string? tagged?)

/-- What a value may be read as. -/
inductive Part where
  | program
  | classDef
  | feature
  | param
  | node
  | expr
  | varRef
  | methodRef
deriving DecidableEq, Repr

/-- How the value of a field is read: as a part, as a list of parts, or as something without
parts. -/
inductive Reading where
  | one (part : Part)
  | many (part : Part)
  | raw
deriving DecidableEq, Repr

/-- How the items of an array are read. -/
def Reading.item : Reading → Reading
  | one _ => raw
  | many part => one part
  | raw => raw

/-- The kind of a tagged value, or the empty text if it has none. -/
def kindOf (read : Json → Option String) : Json → String
  | .object members => (Json.required read "kind" members).getD ""
  | .array (kind :: _) => (read kind).getD ""
  | _ => ""

/-- The fields of a variable, by its kind. -/
def varRefFields : String → List (String × Reading)
  | "Attribute" => [("class", .raw), ("name", .raw)]
  | "Param" => [("name", .raw)]
  | "Local" => [("name", .raw), ("line", .raw)]
  | _ => []

/-- The fields of an expression, by its kind. -/
def exprFields : String → List (String × Reading)
  | "Block" => [("exprs", .raw)]
  | "LocalDefinition" =>
      [("name", .raw), ("type_name", .raw), ("init", .raw), ("scope", .raw),
        ("variable_type", .raw)]
  | "BaseDispatch" =>
      [("object", .raw), ("name", .raw), ("args", .raw), ("method", .one .methodRef)]
  | "StaticDispatch" =>
      [("object", .raw), ("static_type", .raw), ("name", .raw), ("args", .raw), ("self_type", .raw),
        ("method", .one .methodRef)]
  | "IfStatement" => [("condition", .raw), ("then_expr", .raw), ("else_expr", .raw)]
  | "WhileStatement" => [("condition", .raw), ("body", .raw)]
  | "Cast" => [("type_name", .raw), ("expr", .raw)]
  | "NewObject" => [("type_name", .raw)]
  | "SubString" => [("string", .raw), ("start", .raw), ("end", .raw)]
  | "Assignment" => [("symbol", .raw), ("expr", .raw), ("variable", .one .varRef)]
  | "Addition" => [("lhs", .raw), ("rhs", .raw)]
  | "BinaryOp" => [("op", .raw), ("lhs", .raw), ("rhs", .raw)]
  | "UnaryOp" => [("op", .raw), ("expr", .raw)]
  | "EqualComparison" => [("lhs", .raw), ("rhs", .raw)]
  | "Symbol" => [("name", .raw), ("variable", .one .varRef)]
  | "IntConstant" => [("value", .raw)]
  | "StringConstant" => [("value", .raw)]
  | _ => []

/-- The fields of a feature, by its kind. -/
def featureFields : String → List (String × Reading)
  | "Method" =>
      [("line", .raw), ("name", .raw), ("params", .many .param), ("return_type", .raw),
        ("body", .raw), ("return_type_data", .raw), ("self_param", .one .param), ("owner", .raw)]
  | "Attribute" =>
      [("line", .raw), ("name", .raw), ("type_name", .raw), ("init", .raw), ("type_data", .raw),
        ("init_self", .one .param)]
  | _ => []

/-- The fields that a part knows, in their order, given the value that it is read from. The kind is
in front of them where there is one to be told. -/
def Part.known : Part → Json → List (String × Reading)
  | program, _ =>
      [("line", .raw), ("classes", .many .classDef), ("exprs", .many .node),
        ("builtins", .many .classDef)]
  | classDef, _ =>
      [("line", .raw), ("name", .raw), ("parent", .raw), ("features", .many .feature),
        ("parent_data", .raw)]
  | feature, v => ("kind", .raw) :: featureFields (kindOf string? v)
  | param, _ => [("line", .raw), ("name", .raw), ("type_name", .raw), ("variable_type", .raw)]
  | node, _ => [("line", .raw), ("expr", .one .expr), ("ty", .raw)]
  | expr, v => ("kind", .raw) :: exprFields (kindOf string? v)
  | varRef, v => ("kind", .raw) :: varRefFields (kindOf VarRef.kind? v)
  | methodRef, _ => [("class", .raw), ("name", .raw)]

variable {α β : Type} {r : Reading} {v v' : Json} {part : Part} {key : String}

/-- No part knows two fields of one name. -/
theorem Part.nodup_known (part : Part) (v : Json) : ((part.known v).map Prod.fst).Nodup := by
  cases part with
  | feature =>
    rw [known, List.map_cons]
    unfold featureFields
    split <;> decide
  | expr =>
    rw [known, List.map_cons]
    unfold exprFields
    split <;> decide
  | varRef =>
    rw [known, List.map_cons]
    unfold varRefFields
    split <;> decide
  | _ =>
    rw [known]
    decide

/-- Two readings of a known field are one. -/
theorem Part.known_unique {r' : Reading} (h : (key, r) ∈ part.known v)
    (h' : (key, r') ∈ part.known v) : r = r' := by
  have hfield := List.inj_on_of_nodup_map (part.nodup_known v) h h' rfl
  exact (Prod.mk.inj hfield).2

/-! ### Edits -/

/-- A value is changed in one place, so that its known fields stay as they are: the members of some
object are permuted, or an object that is read as a part loses a member that the part does not
know. -/
inductive Edit : Reading → Json → Json → Prop where
  | permute {r members members'} (h : List.Perm members members') :
      Edit r (.object members) (.object members')
  | drop {part key value} (front back : Members)
      (h : key ∉ (part.known (.object (front ++ (key, value) :: back))).map Prod.fst) :
      Edit (.one part) (.object (front ++ (key, value) :: back)) (.object (front ++ back))
  | item {r value value'} (front back : List Json) (h : Edit r.item value value') :
      Edit r (.array (front ++ value :: back)) (.array (front ++ value' :: back))
  | field {part key r value value'} (front back : Members)
      (hknown : (key, r) ∈ part.known (.object (front ++ (key, value) :: back)))
      (h : Edit r value value') :
      Edit (.one part) (.object (front ++ (key, value) :: back))
        (.object (front ++ (key, value') :: back))
  | place {part key r value value'} (front back : List Json)
      (hplace : (part.known (.array (front ++ value :: back)))[front.length]? = some (key, r))
      (h : Edit r value value') :
      Edit (.one part) (.array (front ++ value :: back)) (.array (front ++ value' :: back))
  | inside {r key value value'} (front back : Members) (h : Edit .raw value value') :
      Edit r (.object (front ++ (key, value) :: back)) (.object (front ++ (key, value') :: back))

/-- A known field, which is there, is added to some object that is read as a part. -/
inductive Repeat : Reading → Json → Json → Prop where
  | here {part key value} (front back : Members)
      (hknown : key ∈ (part.known (.object (front ++ back))).map Prod.fst)
      (hthere : key ∈ (front ++ back).map Prod.fst) :
      Repeat (.one part) (.object (front ++ back)) (.object (front ++ (key, value) :: back))
  | item {r value value'} (front back : List Json) (h : Repeat r.item value value') :
      Repeat r (.array (front ++ value :: back)) (.array (front ++ value' :: back))
  | field {part key r value value'} (front back : Members)
      (hknown : (key, r) ∈ part.known (.object (front ++ (key, value) :: back)))
      (h : Repeat r value value') :
      Repeat (.one part) (.object (front ++ (key, value) :: back))
        (.object (front ++ (key, value') :: back))
  | place {part key r value value'} (front back : List Json)
      (hplace : (part.known (.array (front ++ value :: back)))[front.length]? = some (key, r))
      (h : Repeat r value value') :
      Repeat (.one part) (.array (front ++ value :: back)) (.array (front ++ value' :: back))

/-- What may be done to any value may be done to a part. -/
theorem Edit.of_raw (h : Edit .raw v v') (r : Reading) : Edit r v v' := by
  generalize hraw : Reading.raw = s at h
  induction h generalizing r with
  | permute h => exact .permute h
  | drop => cases hraw
  | item front back _ ih =>
    subst hraw
    exact .item front back (ih r.item rfl)
  | field => cases hraw
  | place => cases hraw
  | inside front back h _ => exact .inside front back h

/-- Nothing is repeated where there are no parts. -/
theorem not_repeat_raw : ¬ Repeat .raw v v' := by
  intro h
  generalize hraw : Reading.raw = s at h
  induction h with
  | here => cases hraw
  | item _ _ _ ih =>
    subst hraw
    exact ih rfl
  | field => cases hraw
  | place => cases hraw

/-- In an object with one member, only the value of that member can be edited. -/
theorem Edit.exists_of_singleton {key : String} (h : Edit .raw (.object [(key, v)]) v') :
    ∃ value, v' = .object [(key, value)] ∧ (v = value ∨ Edit .raw v value) := by
  generalize hmembers : [(key, v)] = members at h
  cases h with
  | permute hperm =>
    subst hmembers
    exact ⟨v, by rw [hperm.singleton_eq], .inl rfl⟩
  | inside front back hvalue =>
    cases front with
    | nil =>
      cases hmembers
      exact ⟨_, rfl, .inr hvalue⟩
    | cons => simp at hmembers

/-- In an object without members, nothing can be edited. -/
theorem Edit.eq_of_nil (h : Edit .raw (.object []) v') : v' = .object [] := by
  generalize hmembers : ([] : Members) = members at h
  cases h with
  | permute hperm =>
    subst hmembers
    rw [hperm.nil_eq]
  | inside front => simp at hmembers

/-- An edited value is neither more deeply nested nor less plain. -/
theorem Edit.isPlain {levels : Nat} (h : Edit r v v') (hv : v.isPlain levels = true) :
    v'.isPlain levels = true := by
  induction h generalizing levels with
  | permute h =>
    simp only [Json.isPlain, Bool.and_eq_true, Json.membersPlain_iff] at hv ⊢
    exact ⟨hv.1, fun m hm => hv.2 m (h.mem_iff.mpr hm)⟩
  | drop front back _ =>
    simp only [Json.isPlain, Bool.and_eq_true, Json.membersPlain_iff, List.forall_mem_append,
      List.forall_mem_cons] at hv ⊢
    exact ⟨hv.1, hv.2.1, hv.2.2.2⟩
  | item front back _ ih =>
    simp only [Json.isPlain, Bool.and_eq_true, Json.itemsPlain_iff, List.forall_mem_append,
      List.forall_mem_cons] at hv ⊢
    exact ⟨hv.1, hv.2.1, ih hv.2.2.1, hv.2.2.2⟩
  | field front back _ _ ih =>
    simp only [Json.isPlain, Bool.and_eq_true, Json.membersPlain_iff, List.forall_mem_append,
      List.forall_mem_cons] at hv ⊢
    exact ⟨hv.1, hv.2.1, ih hv.2.2.1, hv.2.2.2⟩
  | place front back _ _ ih =>
    simp only [Json.isPlain, Bool.and_eq_true, Json.itemsPlain_iff, List.forall_mem_append,
      List.forall_mem_cons] at hv ⊢
    exact ⟨hv.1, hv.2.1, ih hv.2.2.1, hv.2.2.2⟩
  | inside front back _ ih =>
    simp only [Json.isPlain, Bool.and_eq_true, Json.membersPlain_iff, List.forall_mem_append,
      List.forall_mem_cons] at hv ⊢
    exact ⟨hv.1, hv.2.1, ih hv.2.2.1, hv.2.2.2⟩

/-! ### Readers -/

/-- The reader keeps its result under edits, and fails where a known field is repeated. -/
def Steady (r : Reading) (read : Json → Option α) : Prop :=
  ∀ v x, read v = some x →
    (∀ v', Edit r v v' → read v' = some x) ∧ ∀ v', Repeat r v v' → read v' = none

/-- The values under a key were edited at most. -/
def Kept (r : Reading) (old new : List Json) : Prop :=
  (old = [] → new = []) ∧ ∀ v, old = [v] → ∃ v', new = [v'] ∧ (v = v' ∨ Edit r v v')

/-- The values under a key became too many, or a known field was repeated in the only one. -/
def Lost (r : Reading) (old new : List Json) : Prop :=
  2 ≤ new.length ∨ ∃ v v', old = [v] ∧ new = [v'] ∧ Repeat r v v'

/-- A record that sees the values under known keys only. -/
structure ByFields (known : List (String × Reading)) (record : Record α) : Prop where
  names : record.names = known.map Prod.fst
  keep : ∀ {members members' x}, record.read members = some x →
    (∀ field ∈ known, Kept field.2 (values field.1 members) (values field.1 members')) →
    record.read members' = some x
  lose : ∀ {members members' x}, record.read members = some x →
    (∀ field ∈ known, Kept field.2 (values field.1 members) (values field.1 members') ∨
      Lost field.2 (values field.1 members) (values field.1 members')) →
    (∃ field ∈ known, Lost field.2 (values field.1 members) (values field.1 members')) →
    record.read members' = none

namespace ByFields

variable {known known' : List (String × Reading)} {read : Json → Option α} {record : Record β}

/-- Nothing is read. -/
theorem pure (x : α) : ByFields [] (Pure.pure x : Record α) where
  names := rfl
  keep h _ := h
  lose _ _ hlost := by simp at hlost

theorem map (h : ByFields known record) (f : β → α) : ByFields known (f <$> record) where
  names := h.names
  keep hx hkept := by
    obtain ⟨y, hy, rfl⟩ := Option.map_eq_some_iff.mp hx
    exact congrArg (Option.map f) (h.keep hy hkept)
  lose hx hall hlost := by
    obtain ⟨y, hy, rfl⟩ := Option.map_eq_some_iff.mp hx
    exact congrArg (Option.map f) (h.lose hy hall hlost)

/-- Some fields are read, and then others. -/
theorem seq {first : Record (β → α)} (hfirst : ByFields known first)
    (h : ByFields known' record) : ByFields (known ++ known') (first <*> record) where
  names := by
    rw [List.map_append, ← hfirst.names, ← h.names]
    exact List.map_append
  keep hx hkept := by
    obtain ⟨f, hf, hx⟩ := Option.bind_eq_some_iff.mp hx
    obtain ⟨y, hy, rfl⟩ := Option.map_eq_some_iff.mp hx
    obtain ⟨hknown, hknown'⟩ := List.forall_mem_append.mp hkept
    rw [Record.read_seq, hfirst.keep hf hknown, h.keep hy hknown']
    rfl
  lose {members members'} _ hx hall hlost := by
    obtain ⟨f, hf, hx⟩ := Option.bind_eq_some_iff.mp hx
    obtain ⟨y, hy, -⟩ := Option.map_eq_some_iff.mp hx
    obtain ⟨hknown, hknown'⟩ := List.forall_mem_append.mp hall
    rw [Record.read_seq]
    by_cases hearly : ∃ field ∈ known,
        Lost field.2 (values field.1 members) (values field.1 members')
    · rw [hfirst.lose hf hknown hearly, Option.bind_none]
    · -- the first fields are as they were, so the loss is among the others
      have hkept : ∀ field ∈ known,
          Kept field.2 (values field.1 members) (values field.1 members') :=
        fun field hfield => (hknown field hfield).resolve_right fun hfield' =>
          hearly ⟨field, hfield, hfield'⟩
      obtain ⟨field, hmem, hfield⟩ := hlost
      have hlate := (List.mem_append.mp hmem).resolve_left fun hmem =>
        hearly ⟨field, hmem, hfield⟩
      rw [hfirst.keep hf hkept, Option.bind_some, h.lose hy hknown' ⟨field, hlate, hfield⟩,
        Option.map_none]

/-- A record with one field. -/
theorem of_single {f : Members → Option α} (omissible : Bool)
    (hkeep : ∀ members members' x, f members = some x →
      Kept r (values key members) (values key members') → f members' = some x)
    (hlose : ∀ members members' x, f members = some x →
      Lost r (values key members) (values key members') → f members' = none) :
    ByFields [(key, r)] ⟨[⟨key, omissible⟩], f⟩ where
  names := rfl
  keep h hkept := hkeep _ _ _ h (hkept (key, r) (List.mem_singleton_self _))
  lose h _ hlost := by
    obtain ⟨field, hmem, hfield⟩ := hlost
    obtain rfl := List.mem_singleton.mp hmem
    exact hlose _ _ _ h hfield

/-- A field that must be there. -/
theorem required (h : Steady r read) : ByFields [(key, r)] (Record.required read key) := by
  apply of_single
  · intro members members' x hx hkept
    unfold Json.required at hx ⊢
    split at hx
    · next v hv =>
      obtain ⟨v', hv', rfl | hedit⟩ := hkept.2 v hv
      · simp [hv', hx]
      · simp [hv', (h v x hx).1 v' hedit]
    · cases hx
  · intro members members' x hx hlost
    unfold Json.required at hx ⊢
    -- the field stands there twice, or something inside of its value does
    rcases hlost with hlength | ⟨v, v', hv, hv', hrepeat⟩
    · split
      · next hv' => simp [hv'] at hlength
      · rfl
    · simp only [hv] at hx
      simp [hv', (h v x hx).2 v' hrepeat]

/-- A field that may be missing. -/
theorem of_withDefault {default : α} (omissible : Bool) (h : Steady r read) :
    ByFields [(key, r)] ⟨[⟨key, omissible⟩], Json.withDefault default read key⟩ := by
  apply of_single
  · intro members members' x hx hkept
    unfold Json.withDefault at hx ⊢
    split at hx
    · next hv => simpa [hkept.1 hv] using hx
    · next v hv =>
      obtain ⟨v', hv', rfl | hedit⟩ := hkept.2 v hv
      · simp [hv', hx]
      · simp [hv', (h v x hx).1 v' hedit]
    · cases hx
  · intro members members' x hx hlost
    unfold Json.withDefault at hx ⊢
    rcases hlost with hlength | ⟨v, v', hv, hv', hrepeat⟩
    · split
      · next hv' => simp [hv'] at hlength
      · next hv' => simp [hv'] at hlength
      · rfl
    · simp only [hv] at hx
      simp [hv', (h v x hx).2 v' hrepeat]

theorem withDefault {default : α} (h : Steady r read) :
    ByFields [(key, r)] (Record.withDefault default read key) := of_withDefault true h

end ByFields

/-- A value, or null. -/
def nullOr (read : Json → Option α) : Json → Option (Option α)
  | .null => some none
  | v => (read v).map some

theorem nullOr_of_ne_null {read : Json → Option α} (h : v ≠ .null) :
    nullOr read v = (read v).map some := by
  unfold nullOr
  split
  · exact absurd rfl h
  · rfl

theorem optional_eq_withDefault (read : Json → Option α) (key : String) :
    Json.optional read key = Json.withDefault none (nullOr read) key := by
  funext members
  unfold Json.optional Json.withDefault nullOr
  rcases values key members with _ | ⟨v, _ | ⟨w, rest⟩⟩
  · rfl
  · cases v <;> rfl
  · cases v <;> rfl

theorem Edit.ne_null (h : Edit r v v') : v ≠ .null ∧ v' ≠ .null := by
  cases h <;> exact ⟨nofun, nofun⟩

theorem Repeat.ne_null (h : Repeat r v v') : v ≠ .null ∧ v' ≠ .null := by
  cases h <;> exact ⟨nofun, nofun⟩

/-- No change to a value takes place at `null`. -/
theorem Steady.nullOr {read : Json → Option α} (h : Steady r read) : Steady r (nullOr read) := by
  intro v x hx
  constructor
  · intro v' hedit
    obtain ⟨hv, hv'⟩ := hedit.ne_null
    rw [nullOr_of_ne_null hv] at hx
    rw [nullOr_of_ne_null hv']
    obtain ⟨y, hy, rfl⟩ := Option.map_eq_some_iff.mp hx
    rw [(h v y hy).1 v' hedit, Option.map_some]
  · intro v' hrepeat
    obtain ⟨hv, hv'⟩ := hrepeat.ne_null
    rw [nullOr_of_ne_null hv] at hx
    rw [nullOr_of_ne_null hv']
    obtain ⟨y, hy, rfl⟩ := Option.map_eq_some_iff.mp hx
    rw [(h v y hy).2 v' hrepeat, Option.map_none]

namespace ByFields

variable {read : Json → Option α}

/-- A field that may be null, whether or not it may be missing in an array. -/
theorem of_optional (omissible : Bool) (h : Steady r read) :
    ByFields [(key, r)] ⟨[⟨key, omissible⟩], Json.optional read key⟩ := by
  rw [optional_eq_withDefault]
  exact of_withDefault omissible h.nullOr

theorem nullable (h : Steady r read) : ByFields [(key, r)] (Record.nullable read key) :=
  of_optional false h

theorem optional (h : Steady r read) : ByFields [(key, r)] (Record.optional read key) :=
  of_optional true h

end ByFields

/-! ### Single values -/

namespace Steady

variable {read : Json → Option α}

/-- There is nothing to edit in a value that is neither an array nor an object. -/
theorem of_scalar (harray : ∀ items, read (.array items) = none)
    (hobject : ∀ members, read (.object members) = none) : Steady r read := by
  intro v x hx
  constructor
  · intro v' hedit
    cases hedit <;> simp [harray, hobject] at hx
  · intro v' hrepeat
    cases hrepeat <;> simp [harray, hobject] at hx

theorem map (h : Steady r read) (f : α → β) : Steady r fun v => (read v).map f := by
  intro v x hx
  obtain ⟨y, hy, rfl⟩ := Option.map_eq_some_iff.mp hx
  obtain ⟨hedit, hrepeat⟩ := h v y hy
  exact ⟨fun v' h' => congrArg (Option.map f) (hedit v' h'),
    fun v' h' => congrArg (Option.map f) (hrepeat v' h')⟩

/-- What is read from a list, around one of its items. -/
theorem mapM_append_cons (front back : List Json) (v : Json) :
    (front ++ v :: back).mapM read = (front.mapM read).bind fun xs =>
      (read v).bind fun x => (back.mapM read).map fun ys => xs ++ x :: ys := by
  rw [List.mapM_append, List.mapM_cons]
  cases front.mapM read <;> cases read v <;> cases back.mapM read <;> rfl

/-- An edit inside an item of a list is seen by the reader of that item. -/
theorem listOf? (h : Steady r.item read) (hr : ∀ part, r ≠ .one part) :
    Steady r (Json.listOf? read) := by
  intro v xs hxs
  constructor
  · intro v' hedit
    cases hedit with
    | item front back hitem =>
      rw [Json.listOf?, mapM_append_cons] at hxs ⊢
      obtain ⟨before, hfront, hxs⟩ := Option.bind_eq_some_iff.mp hxs
      obtain ⟨x, hx, hback⟩ := Option.bind_eq_some_iff.mp hxs
      rw [hfront, (h _ x hx).1 _ hitem]
      exact hback
    | place => exact absurd rfl (hr _)
    | _ => cases hxs
  · intro v' hrepeat
    cases hrepeat with
    | item front back hitem =>
      rw [Json.listOf?, mapM_append_cons] at hxs ⊢
      obtain ⟨before, hfront, hxs⟩ := Option.bind_eq_some_iff.mp hxs
      obtain ⟨x, hx, -⟩ := Option.bind_eq_some_iff.mp hxs
      rw [hfront, (h _ x hx).2 _ hitem]
      rfl
    | place => exact absurd rfl (hr _)
    | _ => cases hxs

/-- A reader may look first whether the value is plain. -/
theorem of_guard {read' : Json → Option α} (h : Steady r read) {levels : Nat}
    (hread : ∀ v, read' v = (guard (v.isPlain levels = true) : Option Unit).bind fun _ => read v) :
    Steady r read' := by
  have hread' (v : Json) : read' v = if v.isPlain levels then read v else none := by
    rw [hread]
    cases v.isPlain levels <;> rfl
  intro v x hx
  rw [hread', Option.ite_none_right_eq_some] at hx
  obtain ⟨hplain, hx⟩ := hx
  constructor
  · intro v' hedit
    rw [hread', if_pos (hedit.isPlain hplain)]
    exact (h v x hx).1 v' hedit
  · intro v' hrepeat
    rw [hread', (h v x hx).2 v' hrepeat, ite_self]

end Steady

/-! ### Objects -/

variable {members members' : Members}

theorem Kept.refl (old : List Json) : Kept r old old := ⟨id, fun v hv => ⟨v, hv, .inl rfl⟩⟩

theorem Kept.of_perm {old new : List Json} (h : old.Perm new) : Kept r old new := by
  constructor
  · rintro rfl
    exact h.nil_eq.symm
  · rintro v rfl
    exact ⟨v, h.singleton_eq.symm, .inl rfl⟩

theorem eq_of_append_cons_eq_singleton {front back : List Json} {w : Json}
    (h : front ++ v :: back = [w]) : front = [] ∧ back = [] ∧ v = w := by
  cases front with
  | nil => simpa [and_comm] using h
  | cons => simp at h

/-- The value of one member is edited. -/
theorem Kept.of_edit {name : String} {front back : Members} (h : name = key → Edit r v v') :
    Kept r (values key (front ++ (name, v) :: back))
      (values key (front ++ (name, v') :: back)) := by
  simp only [Json.values_append, Json.values_cons]
  by_cases hname : name = key
  · rw [if_pos hname, if_pos hname]
    constructor
    · simp
    · intro w hw
      obtain ⟨hfront, hback, rfl⟩ := eq_of_append_cons_eq_singleton hw
      exact ⟨v', by rw [hfront, hback]; rfl, .inr (h hname)⟩
  · rw [if_neg hname, if_neg hname]
    exact .refl _

/-- An edit of an object keeps the values of its known fields. -/
theorem Edit.kept (h : Edit (.one part) (.object members) v') :
    ∃ members', v' = .object members' ∧ ∀ field ∈ part.known (.object members),
      Kept field.2 (values field.1 members) (values field.1 members') := by
  cases h with
  | permute h => exact ⟨_, rfl, fun field _ => .of_perm (h.filterMap _)⟩
  | @drop _ name v front back hunknown =>
    refine ⟨_, rfl, ?_⟩
    rintro ⟨key, r⟩ hfield
    have hname : name ≠ key := by
      rintro rfl
      exact hunknown (List.mem_map_of_mem hfield)
    simp only [Json.values_append, Json.values_cons, if_neg hname]
    exact .refl _
  | field front back hknown hvalue =>
    refine ⟨_, rfl, ?_⟩
    rintro ⟨key, r⟩ hfield
    apply Kept.of_edit
    rintro rfl
    rwa [← Part.known_unique hknown hfield]
  | inside front back hvalue =>
    exact ⟨_, rfl, fun field _ => .of_edit fun _ => hvalue.of_raw field.2⟩

theorem length_values_pos (h : key ∈ members.map Prod.fst) : 0 < (values key members).length := by
  obtain ⟨⟨name, v⟩, hmem, rfl⟩ := List.mem_map.mp h
  obtain ⟨front, back, rfl⟩ := List.append_of_mem hmem
  simp only [Json.values_append, Json.values_cons, if_true, List.length_append, List.length_cons]
  omega

/-- A second member of a name leaves too many values. -/
theorem Lost.of_insert {front back : Members} (h : key ∈ (front ++ back).map Prod.fst) :
    Lost r (values key (front ++ back)) (values key (front ++ (key, v) :: back)) := by
  have hpos := length_values_pos h
  left
  simp only [Json.values_append, Json.values_cons, if_true, List.length_append,
    List.length_cons] at hpos ⊢
  omega

/-- The value of one member has a field twice. -/
theorem Lost.of_repeat {front back : Members} (h : Repeat r v v') :
    Lost r (values key (front ++ (key, v) :: back)) (values key (front ++ (key, v') :: back)) := by
  simp only [Json.values_append, Json.values_cons, if_true]
  by_cases hrest : values key front = [] ∧ values key back = []
  · right
    exact ⟨v, v', by simp [hrest], by simp [hrest], h⟩
  · -- the name was there more than once before
    left
    rw [← List.length_eq_zero_iff, ← List.length_eq_zero_iff] at hrest
    rw [List.length_append, List.length_cons]
    omega

theorem Kept.of_ne {name : String} {front back : Members} (h : name ≠ key) (r : Reading) :
    Kept r (values key (front ++ (name, v) :: back)) (values key (front ++ (name, v') :: back)) :=
  .of_edit fun hname => absurd hname h

/-- A repeated field of an object is lost, and the others are kept. -/
theorem Repeat.lost (h : Repeat (.one part) (.object members) v') :
    ∃ members', v' = .object members' ∧
      (∀ field ∈ part.known (.object members),
        Kept field.2 (values field.1 members) (values field.1 members') ∨
          Lost field.2 (values field.1 members) (values field.1 members')) ∧
      ∃ field ∈ part.known (.object members),
        Lost field.2 (values field.1 members) (values field.1 members') := by
  cases h with
  | @here _ name v front back hknown hthere =>
    refine ⟨_, rfl, ?_, ?_⟩
    · rintro ⟨key, r⟩ hfield
      -- only the values of the repeated name change
      by_cases hname : name = key
      · subst hname
        exact .inr (.of_insert hthere)
      · left
        simp only [Json.values_append, Json.values_cons, if_neg hname]
        exact .refl _
    · obtain ⟨⟨_, r⟩, hfield, rfl⟩ := List.mem_map.mp hknown
      exact ⟨_, hfield, .of_insert hthere⟩
  | @field _ name r _ _ front back hknown hvalue =>
    refine ⟨_, rfl, ?_, _, hknown, .of_repeat hvalue⟩
    rintro ⟨key, r'⟩ hfield
    by_cases hname : name = key
    · subst hname
      obtain rfl := Part.known_unique hknown hfield
      exact .inr (.of_repeat hvalue)
    · exact .inl (.of_ne hname r')

/-! ### Arrays -/

section

variable {names : List String} {front back : List Json}

/-- The items of an array under names, around one of them. -/
theorem zip_append_cons {name : String} (h : names[front.length]? = some name) :
    names.zip (front ++ v :: back) =
      (names.take front.length).zip front ++ (name, v) ::
        (names.drop (front.length + 1)).zip back := by
  obtain ⟨hlt, hget⟩ := List.getElem?_eq_some_iff.mp h
  have hnames : names.take front.length ++ name :: names.drop (front.length + 1) = names := by
    rw [← hget, List.getElem_cons_drop, List.take_append_drop]
  have hlength : (names.take front.length).length = front.length :=
    List.length_take_of_le hlt.le
  conv_lhs => rw [← hnames]
  rw [List.zip_append hlength, List.zip_cons_cons]

/-- What stands behind the names has none. -/
theorem zip_append_of_none (h : names[front.length]? = none) (items : List Json) :
    names.zip (front ++ items) = names.zip front := by
  rw [List.getElem?_eq_none_iff] at h
  induction names generalizing front with
  | nil => rfl
  | cons name names ih =>
    cases front with
    | nil => simp at h
    | cons v front =>
      rw [List.cons_append, List.zip_cons_cons, List.zip_cons_cons, ih (Nat.le_of_succ_le_succ h)]

/-- An item of an array is edited. -/
theorem Kept.of_item (h : names[front.length]? = some key → Edit r v v') :
    Kept r (values key (names.zip (front ++ v :: back)))
      (values key (names.zip (front ++ v' :: back))) := by
  cases hname : names[front.length]? with
  | none =>
    rw [zip_append_of_none hname, zip_append_of_none hname]
    exact .refl _
  | some name =>
    rw [zip_append_cons hname, zip_append_cons hname]
    apply Kept.of_edit
    rintro rfl
    exact h hname

/-- Nothing is lost at a place without parts. -/
theorem not_lost_raw {old : List Json} : ¬ Lost .raw old [v'] := by
  rintro (hlength | ⟨v, w, -, -, hrepeat⟩)
  · simp at hlength
  · exact not_repeat_raw hrepeat

/-- A field is repeated in an item of an array. -/
theorem Lost.of_item (hname : names[front.length]? = some key) (h : Repeat r v v') :
    Lost r (values key (names.zip (front ++ v :: back)))
      (values key (names.zip (front ++ v' :: back))) := by
  rw [zip_append_cons hname, zip_append_cons hname]
  exact .of_repeat h

end

/-- The items of an array, under the names of the fields that the part knows. -/
def Part.places (part : Part) (items items' : List Json) : Members :=
  ((part.known (.array items)).map Prod.fst).zip items'

variable {items : List Json}

/-- An edit of an array keeps the values of its known fields. -/
theorem Edit.kept_places (h : Edit (.one part) (.array items) v') :
    ∃ items', v' = .array items' ∧ items'.length = items.length ∧
      ∀ field ∈ part.known (.array items), Kept field.2
        (values field.1 (part.places items items)) (values field.1 (part.places items items')) := by
  cases h with
  | item front back hitem =>
    refine ⟨_, rfl, by simp, fun field _ => ?_⟩
    exact .of_item fun _ => hitem.of_raw field.2
  | @place _ name s _ _ front back hplace hitem =>
    refine ⟨_, rfl, by simp, ?_⟩
    rintro ⟨key, r⟩ hfield
    refine .of_item fun hname => ?_
    rw [List.getElem?_map, hplace] at hname
    obtain rfl : name = key := Option.some_inj.mp hname
    rwa [part.known_unique hfield (List.mem_of_getElem? hplace)]

/-- A field that is repeated inside an array is lost, and the others are kept. -/
theorem Repeat.lost_places (h : Repeat (.one part) (.array items) v') :
    ∃ items', v' = .array items' ∧ items'.length = items.length ∧
      (∀ field ∈ part.known (.array items),
        Kept field.2 (values field.1 (part.places items items))
          (values field.1 (part.places items items')) ∨
        Lost field.2 (values field.1 (part.places items items))
          (values field.1 (part.places items items'))) ∧
      ∃ field ∈ part.known (.array items), Lost field.2
        (values field.1 (part.places items items)) (values field.1 (part.places items items')) := by
  cases h with
  | item front back hitem => exact absurd hitem not_repeat_raw
  | @place _ name s w w' front back hplace hitem =>
    have hname : ((part.known (.array (front ++ w :: back))).map Prod.fst)[front.length]? =
        some name := by rw [List.getElem?_map, hplace]; rfl
    have hknown := List.mem_of_getElem? hplace
    refine ⟨_, rfl, by simp, ?_, _, hknown, .of_item hname hitem⟩
    rintro ⟨key, r⟩ hfield
    by_cases heq : name = key
    · subst heq
      obtain rfl := part.known_unique hknown hfield
      exact .inr (.of_item hname hitem)
    · left
      refine .of_item fun hkey => ?_
      exact absurd (Option.some_inj.mp (hname.symm.trans hkey)) heq

/-! ### Parts -/

/-- A record that is read by its known fields is read steadily. -/
theorem Steady.of_record {record : Record α} (h : ∀ v, ByFields (part.known v) record) :
    Steady (.one part) record.ofJson? := by
  have hplaces (items items' : List Json) : part.places items items' = record.names.zip items' := by
    rw [Part.places, (h _).names]
  intro v x hx
  obtain ⟨members, hmembers, hx⟩ := Record.exists_read_of_ofJson? hx
  match v with
  | .object _ =>
    obtain rfl := Option.some_inj.mp hmembers
    constructor
    · intro v' hedit
      obtain ⟨members', rfl, hkept⟩ := hedit.kept
      exact (h _).keep hx hkept
    · intro v' hrepeat
      obtain ⟨members', rfl, hall, hlost⟩ := hrepeat.lost
      exact (h _).lose hx hall hlost
  | .array items =>
    obtain ⟨-, rfl⟩ := Record.ofItems?_eq_some_iff.mp hmembers
    constructor
    · intro v' hedit
      obtain ⟨items', rfl, hlength, hkept⟩ := hedit.kept_places
      simp only [hplaces] at hkept
      rw [Record.ofJson?, Record.members?, Record.ofItems?_congr hmembers hlength]
      exact (h _).keep hx hkept
    · intro v' hrepeat
      obtain ⟨items', rfl, hlength, hall, hlost⟩ := hrepeat.lost_places
      simp only [hplaces] at hall hlost
      rw [Record.ofJson?, Record.members?, Record.ofItems?_congr hmembers hlength]
      exact (h _).lose hx hall hlost

namespace ByFields

variable {kind? : Json → Option String} {form? : String → Option (Record α)} {kind : String}
  {record : Record α} {known : List (String × Reading)} {members members' : Members} {x : α}

section

variable (hkind : Steady .raw kind?) (hform : form? kind = some record)
  (h : ByFields known record) (hread : Json.required kind? "kind" members = some kind)
  (hx : record.read members = some x)
include hkind hform h hread hx

/-- The kind and the fields of that kind are kept. -/
theorem keep_tagged (hkept : ∀ field ∈ ("kind", .raw) :: known,
      Kept field.2 (values field.1 members) (values field.1 members')) :
    tagged? kind? form? (.object members') = some x := by
  obtain ⟨hfirst, hothers⟩ := List.forall_mem_cons.mp hkept
  have hread' : Json.required kind? "kind" members' = some kind :=
    (required hkind).keep hread (List.forall_mem_singleton.mpr hfirst)
  rw [Json.tagged?_object, hread', Option.bind_some, hform, Option.bind_some, h.keep hx hothers]

/-- The kind or a field of that kind is lost. -/
theorem lose_tagged
    (hall : ∀ field ∈ ("kind", .raw) :: known,
      Kept field.2 (values field.1 members) (values field.1 members') ∨
        Lost field.2 (values field.1 members) (values field.1 members'))
    (hlost : ∃ field ∈ ("kind", .raw) :: known,
      Lost field.2 (values field.1 members) (values field.1 members')) :
    tagged? kind? form? (.object members') = none := by
  obtain ⟨hfirst, hothers⟩ := List.forall_mem_cons.mp hall
  rw [Json.tagged?_object]
  by_cases hearly : Lost .raw (values "kind" members) (values "kind" members')
  · have hread' : Json.required kind? "kind" members' = none :=
      (required hkind).lose hread (List.forall_mem_singleton.mpr hfirst)
        ⟨_, List.mem_singleton_self _, hearly⟩
    rw [hread', Option.bind_none]
  · -- the kind is as it was, so the loss is among the fields
    have hread' : Json.required kind? "kind" members' = some kind :=
      (required hkind).keep hread (List.forall_mem_singleton.mpr (hfirst.resolve_right hearly))
    rw [hread', Option.bind_some, hform, Option.bind_some]
    apply h.lose hx hothers
    obtain ⟨field, hmem, hfield⟩ := hlost
    rcases List.mem_cons.mp hmem with rfl | hmem
    · exact absurd hfield hearly
    · exact ⟨field, hmem, hfield⟩

end

section

variable (h : ByFields known record) (hname : "kind" ∉ known.map Prod.fst) (tag : Json)
include h hname

/-- The record does not look at the kind. -/
theorem read_cons_kind (members : Members) :
    record.read (("kind", tag) :: members) = record.read members := by
  have hsame : ∀ field ∈ known,
      values field.1 (("kind", tag) :: members) = values field.1 members := by
    intro field hfield
    rw [Json.values_cons, if_neg]
    intro heq
    exact hname (heq ▸ List.mem_map_of_mem hfield)
  apply Option.ext
  intro x
  constructor
  · exact fun hx => h.keep hx fun field hfield => hsame field hfield ▸ .refl _
  · exact fun hx => h.keep hx fun field hfield => hsame field hfield ▸ .refl _

/-- The kind has no other value than the one in front. -/
theorem values_cons_kind (items : List Json) :
    values "kind" (("kind", tag) :: record.names.zip items) = [tag] := by
  rw [Json.values_cons, if_pos rfl, Json.values_eq_nil]
  intro hmem
  obtain ⟨member, hmember, heq⟩ := List.mem_map.mp hmem
  apply hname
  rw [← h.names, ← heq]
  exact (List.of_mem_zip hmember).1

theorem required_cons_kind (items : List Json) :
    Json.required kind? "kind" (("kind", tag) :: record.names.zip items) = kind? tag := by
  rw [Json.required, h.values_cons_kind hname]

/-- An array with a kind is read as the object that has its items under the names of the fields. -/
theorem tagged?_array_eq_object {items : List Json} (hform : form? kind = some record)
    (htag : kind? tag = some kind) (hitems : record.ofItems? items = some members) :
    tagged? kind? form? (.array (tag :: items)) =
      tagged? kind? form? (.object (("kind", tag) :: record.names.zip items)) := by
  obtain ⟨-, rfl⟩ := Record.ofItems?_eq_some_iff.mp hitems
  rw [Json.tagged?_array, Json.tagged?_object, h.required_cons_kind hname, htag, Option.bind_some,
    Option.bind_some, hform, Option.bind_some, Option.bind_some, hitems, Option.bind_some,
    h.read_cons_kind hname]

end

end ByFields

/-- A tagged value is read by its kind and by the fields of that kind. -/
theorem Steady.of_forms {kind? : Json → Option String} {form? : String → Option (Record α)}
    {fields : String → List (String × Reading)}
    (hknown : ∀ v, part.known v = ("kind", .raw) :: fields (kindOf kind? v))
    (hkind : Steady .raw kind?)
    (h : ∀ kind record, form? kind = some record → ByFields (fields kind) record) :
    Steady (.one part) (tagged? kind? form?) := by
  intro v x hx
  match v with
  | .object members =>
    simp only [Json.tagged?_object, Option.bind_eq_some_iff] at hx
    obtain ⟨kind, hread, record, hform, hx⟩ := hx
    have hfields := h kind record hform
    have hknown : part.known (.object members) = ("kind", .raw) :: fields kind := by
      rw [hknown, kindOf, hread, Option.getD_some]
    constructor
    · intro v' hedit
      obtain ⟨members', rfl, hkept⟩ := hedit.kept
      exact hfields.keep_tagged hkind hform hread hx (hknown ▸ hkept)
    · intro v' hrepeat
      obtain ⟨members', rfl, hall, hlost⟩ := hrepeat.lost
      exact hfields.lose_tagged hkind hform hread hx (hknown ▸ hall) (hknown ▸ hlost)
  | .array (tag :: items) =>
    simp only [Json.tagged?_array, Option.bind_eq_some_iff] at hx
    obtain ⟨kind, htag, record, hform, members, hitems, hx⟩ := hx
    obtain ⟨-, rfl⟩ := Record.ofItems?_eq_some_iff.mp hitems
    have hfields := h kind record hform
    have hknown : part.known (.array (tag :: items)) = ("kind", .raw) :: fields kind := by
      rw [hknown, kindOf, htag, Option.getD_some]
    have hname : "kind" ∉ (fields kind).map Prod.fst := by
      have hnodup := part.nodup_known (.array (tag :: items))
      rw [hknown, List.map_cons, List.nodup_cons] at hnodup
      exact hnodup.1
    have hplaces (tag' : Json) (items' : List Json) :
        part.places (tag :: items) (tag' :: items') =
          ("kind", tag') :: record.names.zip items' := by
      rw [Part.places, hknown, List.map_cons, List.zip_cons_cons, hfields.names]
    have hread : Json.required kind? "kind" (("kind", tag) :: record.names.zip items) = some kind :=
      (hfields.required_cons_kind hname tag items).trans htag
    -- as long as the kind is kept, the array is read as the object with the same members
    have hobject {tag' : Json} {items' : List Json} (hlength : items'.length = items.length)
        (hkept : Kept .raw [tag] [tag']) : tagged? kind? form? (.array (tag' :: items')) =
          tagged? kind? form? (.object (("kind", tag') :: record.names.zip items')) := by
      refine hfields.tagged?_array_eq_object hname tag' hform ?_
        (Record.ofItems?_congr hitems hlength)
      obtain ⟨_, heq, rfl | hedit⟩ := hkept.2 tag rfl
      · rwa [List.singleton_inj.mp heq]
      · rw [List.singleton_inj.mp heq]
        exact (hkind tag kind htag).1 _ hedit
    rw [← hfields.read_cons_kind hname tag] at hx
    constructor
    · intro v' hedit
      obtain ⟨all', rfl, hlength, hkept⟩ := hedit.kept_places
      obtain ⟨tag', items', rfl⟩ := List.exists_of_length_succ all' hlength
      simp only [hknown, hplaces] at hkept
      have hfirst := hkept _ List.mem_cons_self
      rw [hfields.values_cons_kind hname, hfields.values_cons_kind hname] at hfirst
      rw [hobject (Nat.succ_injective hlength) hfirst]
      exact hfields.keep_tagged hkind hform hread hx hkept
    · intro v' hrepeat
      obtain ⟨all', rfl, hlength, hall, hlost⟩ := hrepeat.lost_places
      obtain ⟨tag', items', rfl⟩ := List.exists_of_length_succ all' hlength
      simp only [hknown, hplaces] at hall hlost
      have hfirst := hall _ List.mem_cons_self
      rw [hfields.values_cons_kind hname, hfields.values_cons_kind hname] at hfirst
      rw [hobject (Nat.succ_injective hlength) (hfirst.resolve_right not_lost_raw)]
      exact hfields.lose_tagged hkind hform hread hx hall hlost

end Lcpl.Schema
