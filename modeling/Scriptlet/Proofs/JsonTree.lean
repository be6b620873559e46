import Mathlib.Data.List.Forall2
import Scriptlet.Proofs.Agenda
import Scriptlet.Proofs.JsonDepth
import Scriptlet.Proofs.JsonText
import Scriptlet.Proofs.Phrase
import Scriptlet.Proofs.WellFormed
import Scriptlet.Tree.Json

/-!
# Programs read back from JSON

The object of a node, said without the writer: its type, where it begins and ends, and the fields
that a node of its type has (`Program.Shown`). The text written for a parsed program is read as such
an object, and no other program that was parsed from well-formed UTF-8 is shown by it. The type of
an object decides what kind of node it is for; names and digits are ASCII, and strings are cut out
of the source at quotes, so nothing in them was repaired.

A program is written only if its object nests at most 10000 lists and objects. The reader has no
such bound.
-/

namespace Scriptlet

/-! ### Objects of nodes -/

/-- The object of a node: its type and its span, then its own fields. -/
def nodeValue (type : Text) (span : Span) (fields : List (Text × JsonValue)) : JsonValue :=
  .object ((utf8 "type", .string type) :: (utf8 "start", .number span.start 0) ::
    (utf8 "end", .number span.stop 0) :: fields)

theorem nodeValue_inj {type type' : Text} {span span' : Span} {fs fs' : List (Text × JsonValue)}
    (h : nodeValue type span fs = nodeValue type' span' fs') :
    type = type' ∧ span = span' ∧ fs = fs' := by
  obtain ⟨start, stop⟩ := span
  obtain ⟨start', stop'⟩ := span'
  simpa [nodeValue, and_assoc] using h

/-- A field for a type; none if no type is given. -/
def typeValue (name : String) : Option Text → List (Text × JsonValue)
  | none => []
  | some t => [(utf8 name, .string t.repaired)]

/-- The object of a name. -/
def Identifier.shown (id : Identifier) : JsonValue :=
  nodeValue (utf8 "Identifier") id.span
    ((utf8 "name", .string id.name.repaired) :: typeValue "valueType" id.typeName)

/-- A finite number is shown by a number, any other by null. -/
def Binary64.Shown : Binary64 → JsonValue → Prop
  | .finite _ _ _, v => ∃ mantissa exponent, v = .number mantissa exponent
  | _, v => v = .null

mutual

/-- The fields that the object of an expression has besides its type and span. -/
def Expression.Fields : Expression → List (Text × JsonValue) → Prop
  | .identifier id, fs =>
    fs = (utf8 "name", .string id.name.repaired) :: typeValue "valueType" id.typeName
  | .number _ value raw, fs =>
    ∃ v, value.Shown v ∧ fs = [(utf8 "value", v), (utf8 "raw", .string raw.repaired)]
  | .string _ value raw, fs =>
    fs = [(utf8 "value", .string value.repaired), (utf8 "raw", .string raw.repaired)]
  | .call _ callee arguments, fs =>
    ∃ vs, Expression.ShownAll arguments vs ∧
      fs = [(utf8 "callee", callee.shown), (utf8 "arguments", .array vs)]

/-- The values are objects of the expressions. -/
def Expression.ShownAll : List Expression → List JsonValue → Prop
  | [], vs => vs = []
  | e :: es, vs =>
    ∃ fs ws, e.Fields fs ∧ Expression.ShownAll es ws ∧ vs = nodeValue e.typeName e.span fs :: ws

end

/-- The value is the object of the expression. -/
def Expression.Shown (e : Expression) (v : JsonValue) : Prop :=
  ∃ fs, e.Fields fs ∧ v = nodeValue e.typeName e.span fs

/-- The fields of the head of a function. -/
def signatureValue (id : Identifier) (params : List Identifier) (returnType : Option Text) :
    List (Text × JsonValue) :=
  [(utf8 "id", id.shown), (utf8 "params", .array (params.map Identifier.shown))]
    ++ typeValue "returnType" returnType

mutual

/-- The fields that the object of a statement has besides its type and span. -/
def Statement.Fields : Statement → List (Text × JsonValue) → Prop
  | .declaration _ id params returnType, fs => fs = signatureValue id params returnType
  | .definition _ id params returnType bodySpan body, fs =>
    ∃ vs, Statement.ShownAll body vs ∧
      fs = signatureValue id params returnType ++
        [(utf8 "body", nodeValue (utf8 "BlockStatement") bodySpan [(utf8 "body", .array vs)])]
  | .constant _ id value, fs => ∃ v, value.Shown v ∧ fs = [(utf8 "id", id.shown), (utf8 "value", v)]
  | .return _ none, fs => fs = [(utf8 "argument", .null)]
  | .return _ (some e), fs => ∃ v, e.Shown v ∧ fs = [(utf8 "argument", v)]
  | .expression e, fs => e.Fields fs
  | .block _ body, fs => ∃ vs, Statement.ShownAll body vs ∧ fs = [(utf8 "body", .array vs)]

/-- The values are objects of the statements. -/
def Statement.ShownAll : List Statement → List JsonValue → Prop
  | [], vs => vs = []
  | s :: body, vs =>
    ∃ fs ws, s.Fields fs ∧ Statement.ShownAll body ws ∧ vs = nodeValue s.typeName s.span fs :: ws

end

/-- The value is the object of the statement. -/
def Statement.Shown (s : Statement) (v : JsonValue) : Prop :=
  ∃ fs, s.Fields fs ∧ v = nodeValue s.typeName s.span fs

/-- The value is the object of the program. -/
def Program.Shown (p : Program) (v : JsonValue) : Prop :=
  ∃ vs, Statement.ShownAll p.body vs ∧
    v = nodeValue (utf8 "Program") p.span [(utf8 "body", .array vs)]

theorem Expression.shownAll_iff {es : List Expression} {vs : List JsonValue} :
    Expression.ShownAll es vs ↔ List.Forall₂ Expression.Shown es vs := by
  induction es generalizing vs with
  | nil => simp [Expression.ShownAll]
  | cons e es ih =>
    rw [Expression.ShownAll, List.forall₂_cons_left_iff]
    constructor
    · rintro ⟨fs, ws, hfs, hws, rfl⟩
      exact ⟨_, ws, ⟨fs, hfs, rfl⟩, ih.1 hws, rfl⟩
    · rintro ⟨_, ws, ⟨fs, hfs, rfl⟩, hws, rfl⟩
      exact ⟨fs, ws, hfs, ih.2 hws, rfl⟩

theorem Statement.shownAll_iff {body : List Statement} {vs : List JsonValue} :
    Statement.ShownAll body vs ↔ List.Forall₂ Statement.Shown body vs := by
  induction body generalizing vs with
  | nil => simp [Statement.ShownAll]
  | cons s body ih =>
    rw [Statement.ShownAll, List.forall₂_cons_left_iff]
    constructor
    · rintro ⟨fs, ws, hfs, hws, rfl⟩
      exact ⟨_, ws, ⟨fs, hfs, rfl⟩, ih.1 hws, rfl⟩
    · rintro ⟨_, ws, ⟨fs, hfs, rfl⟩, hws, rfl⟩
      exact ⟨fs, ws, hfs, ih.2 hws, rfl⟩

/-! ### What is written -/

theorem value_nodeObject {type : Text} (h : type.isAscii = true) (span : Span)
    (fields : List (Text × Json)) :
    (nodeObject type span fields).value = nodeValue type span (Json.valueFields fields) := by
  simp (disch := decide) only [nodeObject, List.cons_append, List.nil_append, Json.value,
    Json.valueFields, Text.repaired_of_isAscii, Text.repaired_of_isAscii h, nodeValue]

theorem valueFields_append (fs gs : List (Text × Json)) :
    Json.valueFields (fs ++ gs) = Json.valueFields fs ++ Json.valueFields gs := by
  rw [Json.valueFields_eq, Json.valueFields_eq, Json.valueFields_eq, List.map_append]

theorem valueFields_typeField {name : String} (h : (utf8 name).isAscii = true) (t : Option Text) :
    Json.valueFields (typeField name t) = typeValue name t := by
  cases t with
  | none => rfl
  | some t =>
    simp only [typeField, typeValue, Json.valueFields, Json.value, Text.repaired_of_isAscii h]

theorem Identifier.value_toJson (id : Identifier) : id.toJson.value = id.shown := by
  rw [Identifier.toJson, value_nodeObject (by decide), Identifier.shown]
  simp (disch := decide) only [Json.valueFields, Json.value, valueFields_typeField,
    Text.repaired_of_isAscii]

theorem valueFields_signatureFields (id : Identifier) (params : List Identifier)
    (returnType : Option Text) :
    Json.valueFields (signatureFields id params returnType) =
      signatureValue id params returnType := by
  rw [signatureFields, signatureValue, valueFields_append, valueFields_typeField (by decide)]
  simp (disch := decide) only [Json.valueFields, Json.value, Json.valueAll_eq, List.map_map,
    Text.repaired_of_isAscii, Identifier.value_toJson]
  rw [show Json.value ∘ Identifier.toJson = Identifier.shown from funext Identifier.value_toJson]

theorem Binary64.shown_realValue (x : Binary64) : x.Shown (Json.realValue x) := by
  cases x with
  | nan => rfl
  | infinite negative => cases negative <;> rfl
  | finite negative m e =>
    obtain ⟨a, k, h⟩ := JsonValue.exists_isNumeral negative m e
    exact ⟨a, k, Json.realValue_of_isNumeral h⟩

theorem Expression.toJsonAll_eq (es : List Expression) :
    Expression.toJsonAll es = es.map Expression.toJson := by
  induction es with
  | nil => rfl
  | cons e es ih => rw [Expression.toJsonAll, ih, List.map_cons]

theorem Statement.toJsonAll_eq (body : List Statement) :
    Statement.toJsonAll body = body.map Statement.toJson := by
  induction body with
  | nil => rfl
  | cons s body ih => rw [Statement.toJsonAll, ih, List.map_cons]

theorem Expression.shownAll_valueAll {es : List Expression} (h : ∀ e ∈ es, e.Shown e.toJson.value) :
    Expression.ShownAll es (Json.valueAll (Expression.toJsonAll es)) := by
  rw [Expression.shownAll_iff, Json.valueAll_eq, Expression.toJsonAll_eq, List.map_map,
    List.forall₂_map_right_iff]
  exact List.forall₂_same.2 h

theorem Statement.shownAll_valueAll {body : List Statement}
    (h : ∀ s ∈ body, s.Shown s.toJson.value) :
    Statement.ShownAll body (Json.valueAll (Statement.toJsonAll body)) := by
  rw [Statement.shownAll_iff, Json.valueAll_eq, Statement.toJsonAll_eq, List.map_map,
    List.forall₂_map_right_iff]
  exact List.forall₂_same.2 h

theorem Expression.WellFormed.shown {e : Expression} (h : e.WellFormed) :
    e.Shown e.toJson.value := by
  induction h with
  | identifier _ => exact ⟨_, rfl, Identifier.value_toJson _⟩
  | number _ =>
    refine ⟨_, ⟨_, Binary64.shown_realValue _, rfl⟩, ?_⟩
    rw [Expression.toJson, value_nodeObject (by decide)]
    simp (disch := decide) only [Json.valueFields, Json.value, Text.repaired_of_isAscii]
    rfl
  | string _ =>
    refine ⟨_, rfl, ?_⟩
    rw [Expression.toJson, value_nodeObject (by decide)]
    simp (disch := decide) only [Json.valueFields, Json.value, Text.repaired_of_isAscii]
    rfl
  | call _ _ _ ih =>
    refine ⟨_, ⟨_, Expression.shownAll_valueAll ih, rfl⟩, ?_⟩
    rw [Expression.toJson, value_nodeObject (by decide)]
    simp (disch := decide) only [Json.valueFields, Json.value, Identifier.value_toJson,
      Text.repaired_of_isAscii]
    rfl

theorem Statement.WellFormed.shown {s : Statement} (h : s.WellFormed) : s.Shown s.toJson.value := by
  induction h with
  | declaration _ _ _ =>
    refine ⟨_, rfl, ?_⟩
    rw [Statement.toJson, value_nodeObject (by decide), valueFields_signatureFields]
    rfl
  | definition _ _ _ _ ih =>
    refine ⟨_, ⟨_, Statement.shownAll_valueAll ih, rfl⟩, ?_⟩
    rw [Statement.toJson, value_nodeObject (by decide), valueFields_append,
      valueFields_signatureFields]
    simp (disch := decide) only [Json.valueFields, Json.value, value_nodeObject,
      Text.repaired_of_isAscii]
    rfl
  | constant _ hvalue =>
    refine ⟨_, ⟨_, hvalue.shown, rfl⟩, ?_⟩
    rw [Statement.toJson, value_nodeObject (by decide)]
    simp (disch := decide) only [Json.valueFields, Identifier.value_toJson,
      Text.repaired_of_isAscii]
    rfl
  | @«return» span argument h =>
    cases argument with
    | none =>
      refine ⟨_, rfl, ?_⟩
      rw [Statement.toJson, value_nodeObject (by decide)]
      simp (disch := decide) only [Json.valueFields, Json.value, Text.repaired_of_isAscii]
      rfl
    | some e =>
      refine ⟨_, ⟨_, (h e rfl).shown, rfl⟩, ?_⟩
      rw [Statement.toJson, value_nodeObject (by decide)]
      simp (disch := decide) only [Json.valueFields, Text.repaired_of_isAscii]
      rfl
  | expression h => exact h.shown

/-- The object that is written for a program is its object. -/
theorem Program.WellFormed.shown {p : Program} (h : p.WellFormed) : p.Shown p.toJson.value := by
  refine ⟨_, Statement.shownAll_valueAll fun s hs => (h s hs).shown, ?_⟩
  rw [Program.toJson, value_nodeObject (by decide)]
  simp (disch := decide) only [Json.valueFields, Json.value, Text.repaired_of_isAscii]

/-! ### How deep the object goes -/

theorem Binary64.Shown.nesting {x : Binary64} {v : JsonValue} (h : x.Shown v) : v.nesting = 0 := by
  cases x with
  | finite negative mantissa exponent =>
    obtain ⟨a, k, rfl⟩ := h
    rfl
  | infinite negative =>
    obtain rfl : v = .null := h
    rfl
  | nan =>
    obtain rfl : v = .null := h
    rfl

/-- What is read for a value goes as deep as the value. -/
theorem Json.nesting_value (v : Json) : v.value.nesting = v.nesting := by
  induction v using Json.induction with
  | null | integer | string => rfl
  | real x => exact (Binary64.shown_realValue x).nesting
  | array es ih =>
    have hall : JsonValue.nestingAll (Json.valueAll es) = Json.nestingAll es := by
      induction es with
      | nil => rfl
      | cons e es ihes =>
        obtain ⟨he, hes⟩ := List.forall_mem_cons.1 ih
        exact congrArg₂ max he (ihes hes)
    exact congrArg (· + 1) hall
  | object fs ih =>
    have hall : JsonValue.nestingFields (Json.valueFields fs) = Json.nestingFields fs := by
      induction fs with
      | nil => rfl
      | cons f fs ihfs =>
        obtain ⟨hf, hfs⟩ := List.forall_mem_cons.1 ih
        exact congrArg₂ max hf (ihfs hfs)
    exact congrArg (· + 1) hall

@[simp] theorem nesting_nodeValue (type : Text) (span : Span) (fields : List (Text × JsonValue)) :
    (nodeValue type span fields).nesting = JsonValue.nestingFields fields + 1 := by
  simp [nodeValue, JsonValue.nesting, JsonValue.nestingFields]

theorem Identifier.nesting_shown (id : Identifier) : id.shown.nesting = 1 := by
  rw [← Identifier.value_toJson, Json.nesting_value, Identifier.nesting_toJson]

theorem nestingFields_signatureValue (id : Identifier) (params : List Identifier)
    (returnType : Option Text) :
    JsonValue.nestingFields (signatureValue id params returnType) + 1 = signatureDepth params := by
  have hvalue := Json.nesting_value (nodeObject [] ⟨0, 0⟩ (signatureFields id params returnType))
  rw [value_nodeObject (by decide), nesting_nodeValue, nesting_nodeObject,
    valueFields_signatureFields, nestingFields_signatureFields] at hvalue
  exact hvalue

theorem nestingFields_append_value (fs gs : List (Text × JsonValue)) :
    JsonValue.nestingFields (fs ++ gs) =
      max (JsonValue.nestingFields fs) (JsonValue.nestingFields gs) := by
  induction fs with
  | nil => simp [JsonValue.nestingFields]
  | cons f fs ih =>
    obtain ⟨name, v⟩ := f
    rw [List.cons_append, JsonValue.nestingFields, ih, JsonValue.nestingFields, Nat.max_assoc]

mutual
theorem Expression.Fields.nesting : ∀ {e : Expression} {fs : List (Text × JsonValue)}, e.Fields fs →
    JsonValue.nestingFields fs + 1 = e.toJson.nesting
  | .identifier id, fs, h => by
    have hshown := id.nesting_shown
    rw [Identifier.shown, nesting_nodeValue] at hshown
    rw [Expression.toJson, Identifier.nesting_toJson, h, hshown]
  | .number _ value raw, fs, h => by
    obtain ⟨v, hv, rfl⟩ := h
    simp [Expression.toJson, JsonValue.nestingFields, JsonValue.nesting, hv.nesting,
      Json.nestingFields, Json.nesting]
  | .string _ value raw, fs, h => by
    obtain rfl : fs = _ := h
    rfl
  | .call _ callee args, fs, h => by
    obtain ⟨vs, hvs, rfl⟩ := h
    rw [Expression.nesting_call, ← hvs.nesting]
    simp [JsonValue.nestingFields, JsonValue.nesting, Identifier.nesting_shown]

theorem Expression.ShownAll.nesting : ∀ {es : List Expression} {vs : List JsonValue},
    Expression.ShownAll es vs → JsonValue.nestingAll vs = Json.nestingAll (Expression.toJsonAll es)
  | [], vs, h => by
    obtain rfl : vs = [] := h
    rfl
  | e :: es, vs, h => by
    obtain ⟨fs, ws, hfs, hws, rfl⟩ := h
    rw [JsonValue.nestingAll, nesting_nodeValue, hfs.nesting, hws.nesting]
    rfl
end

theorem Expression.Shown.nesting {e : Expression} {v : JsonValue} (h : e.Shown v) :
    v.nesting = e.toJson.nesting := by
  obtain ⟨fs, hfs, rfl⟩ := h
  rw [nesting_nodeValue, hfs.nesting]

mutual
theorem Statement.Fields.nesting : ∀ {s : Statement} {fs : List (Text × JsonValue)}, s.Fields fs →
    JsonValue.nestingFields fs + 1 = s.toJson.nesting
  | .declaration _ id params returnType, fs, h => by
    obtain rfl : fs = _ := h
    rw [Statement.toJson, nesting_nodeObject, nestingFields_signatureValue,
      nestingFields_signatureFields]
  | .definition _ id params returnType _ body, fs, h => by
    obtain ⟨vs, hvs, rfl⟩ := h
    rw [Statement.nesting_definition, ← hvs.nesting,
      ← nestingFields_signatureValue id params returnType, nestingFields_append_value]
    simp only [JsonValue.nestingFields, nesting_nodeValue, JsonValue.nesting]
    omega
  | .constant _ id value, fs, h => by
    obtain ⟨v, hv, rfl⟩ := h
    rw [Statement.nesting_constant, ← hv.nesting]
    simp only [JsonValue.nestingFields, Identifier.nesting_shown]
    omega
  | .return _ none, fs, h => by
    obtain rfl : fs = _ := h
    rfl
  | .return _ (some e), fs, h => by
    obtain ⟨v, hv, rfl⟩ := h
    rw [Statement.nesting_return, ← hv.nesting]
    simp only [JsonValue.nestingFields]
    omega
  | .expression e, fs, h => Expression.Fields.nesting (e := e) h
  | .block _ body, fs, h => by
    obtain ⟨vs, hvs, rfl⟩ := h
    simp only [JsonValue.nestingFields, JsonValue.nesting, hvs.nesting, Statement.toJson,
      nesting_nodeObject, Json.nestingFields, Json.nesting]

theorem Statement.ShownAll.nesting : ∀ {body : List Statement} {vs : List JsonValue},
    Statement.ShownAll body vs → JsonValue.nestingAll vs =
      Json.nestingAll (Statement.toJsonAll body)
  | [], vs, h => by
    obtain rfl : vs = [] := h
    rfl
  | s :: body, vs, h => by
    obtain ⟨fs, ws, hfs, hws, rfl⟩ := h
    rw [JsonValue.nestingAll, nesting_nodeValue, hfs.nesting, hws.nesting]
    rfl
end

/-- Every object of a program goes as deep as what is written for it. -/
theorem Program.Shown.nesting {p : Program} {v : JsonValue} (h : p.Shown v) :
    v.nesting = p.toJson.nesting := by
  obtain ⟨vs, hvs, rfl⟩ := h
  rw [Program.nesting_toJson, ← hvs.nesting]
  simp [JsonValue.nestingFields, JsonValue.nesting]

theorem Program.WellFormed.eq_compact {p : Program} {t : Text} (h : p.WellFormed)
    (ht : Node.writeJson (.program p) = .ok t) : t = p.toJson.compact := by
  rcases h.writable_cases with ⟨-, hw⟩ | ⟨-, way, hw⟩
  · rw [Node.writeJson, hw] at ht
    exact (Except.ok.inj ht).symm
  · rw [Node.writeJson, hw] at ht
    cases ht

/-! ### One program for an object -/

open Grammar

/-- The strings of a node, and of those below it, are well-formed UTF-8. -/
def Node.Clear (n : Node) : Prop :=
  ∀ span value raw, Relation.ReflTransGen Node.IsParent n
    (.statement (.expression (.string span value raw))) →
    value.isWellFormed = true ∧ raw.isWellFormed = true

theorem Node.Clear.child {n : Node} {s : Statement} (h : n.Clear) (hs : s ∈ n.children) :
    (Node.statement s).Clear :=
  fun span value raw hr => h span value raw (hr.head ⟨s, hs, rfl⟩)

theorem Node.Clear.argument {span : Span} {callee : Identifier} {args : List Expression}
    (h : (Node.statement (.expression (.call span callee args))).Clear) {e : Expression}
    (he : e ∈ args) : (Node.statement (.expression e)).Clear :=
  h.child (List.mem_cons_of_mem _ (List.mem_map_of_mem he))

theorem Node.Clear.body {span bodySpan : Span} {id : Identifier} {params : List Identifier}
    {returnType : Option Text} {body : List Statement}
    (h : (Node.statement (.definition span id params returnType bodySpan body)).Clear)
    {s : Statement} (hs : s ∈ body) : (Node.statement s).Clear := by
  have hblock : Statement.block bodySpan body ∈
      (Node.statement (.definition span id params returnType bodySpan body)).children :=
    List.mem_append_right _ List.mem_cons_self
  exact (h.child hblock).child hs

theorem IsName.repaired {w : Text} (h : IsName w) : w.repaired = w :=
  Text.repaired_of_isAscii h.isAscii

theorem IsDigits.repaired {w : Text} (h : IsDigits w) : w.repaired = w :=
  Text.repaired_of_isAscii h.isAscii

theorem typeValue_inj {name : String} {t t' : Option Text} (ht : ∀ w ∈ t, IsName w)
    (ht' : ∀ w ∈ t', IsName w) (h : typeValue name t = typeValue name t') : t = t' := by
  cases t with
  | none =>
    cases t' with
    | none => rfl
    | some w' => simp [typeValue] at h
  | some w =>
    cases t' with
    | none => simp [typeValue] at h
    | some w' =>
      simp only [typeValue, List.cons.injEq, Prod.mk.injEq, JsonValue.string.injEq,
        (ht w rfl).repaired, (ht' w' rfl).repaired] at h
      rw [h.1.2]

theorem Identifier.Plain.typed {id : Identifier} (h : id.Plain) : id.Typed :=
  ⟨h.name, by rw [h.typeName]; simp⟩

theorem Identifier.Typed.eq_of_shown {id id' : Identifier} (h : id.Typed) (h' : id'.Typed)
    (hv : id.shown = id'.shown) : id = id' := by
  obtain ⟨-, hspan, hfields⟩ := nodeValue_inj hv
  simp only [List.cons.injEq, Prod.mk.injEq, JsonValue.string.injEq, h.name.repaired,
    h'.name.repaired, true_and] at hfields
  obtain ⟨span, name, typeName⟩ := id
  obtain ⟨span', name', typeName'⟩ := id'
  obtain ⟨rfl, htype⟩ := hfields
  have := typeValue_inj h.typeName h'.typeName htype
  simp_all

/-- Lists with the same partners are equal, if partners of one are. -/
theorem eq_of_forall₂ {X Y : Type} {R : X → Y → Prop} {xs xs' : List X} {ys : List Y}
    (h : List.Forall₂ R xs ys) (h' : List.Forall₂ R xs' ys)
    (heq : ∀ x ∈ xs, ∀ x' ∈ xs', ∀ y, R x y → R x' y → x = x') : xs = xs' := by
  induction h generalizing xs' with
  | nil =>
    cases h'
    rfl
  | cons hx _ ih =>
    cases h' with
    | cons hx' hxs' =>
      rw [heq _ List.mem_cons_self _ List.mem_cons_self _ hx hx',
        ih hxs' fun x hx x' hx' => heq x (List.mem_cons_of_mem _ hx) x'
          (List.mem_cons_of_mem _ hx')]

theorem Expression.Shown.same {e e' : Expression} {v : JsonValue} (h : e.Shown v)
    (h' : e'.Shown v) :
    e.typeName = e'.typeName ∧ e.span = e'.span ∧ ∃ fs, e.Fields fs ∧ e'.Fields fs := by
  obtain ⟨fs, hfs, rfl⟩ := h
  obtain ⟨fs', hfs', hv⟩ := h'
  obtain ⟨htype, hspan, rfl⟩ := nodeValue_inj hv
  exact ⟨htype, hspan, fs, hfs, hfs'⟩

theorem Statement.Shown.same {s s' : Statement} {v : JsonValue} (h : s.Shown v) (h' : s'.Shown v) :
    s.typeName = s'.typeName ∧ s.span = s'.span ∧ ∃ fs, s.Fields fs ∧ s'.Fields fs := by
  obtain ⟨fs, hfs, rfl⟩ := h
  obtain ⟨fs', hfs', hv⟩ := h'
  obtain ⟨htype, hspan, rfl⟩ := nodeValue_inj hv
  exact ⟨htype, hspan, fs, hfs, hfs'⟩

/-- **An object shows one expression only**, among those with well-formed strings. -/
theorem Expression.WellFormed.eq_of_shown {e e' : Expression} {v : JsonValue} (h : e.WellFormed)
    (h' : e'.WellFormed) (hc : (Node.statement (.expression e)).Clear)
    (hc' : (Node.statement (.expression e')).Clear) (hv : e.Shown v) (hv' : e'.Shown v) :
    e = e' := by
  -- in each case the types agree, and they leave one case for the other expression
  induction h generalizing e' v with
  | identifier hid =>
    obtain ⟨htype, hspan, fs, hfs, hfs'⟩ := hv.same hv'
    cases h' with
    | identifier hid' =>
      congr 1
      apply hid.typed.eq_of_shown hid'.typed
      rw [Identifier.shown, Identifier.shown, ← hfs, ← hfs']
      exact congrArg (nodeValue _ · fs) hspan
    | number _ | string _ | call _ _ _ =>
      rw [typeName, typeName] at htype
      exact absurd htype (by decide)
  | number hraw =>
    obtain ⟨htype, hspan, fs, ⟨_, -, hfs⟩, hfs'⟩ := hv.same hv'
    cases h' with
    | number hraw' =>
      obtain ⟨_, -, hfs'⟩ := hfs'
      rw [hfs] at hfs'
      simp only [List.cons.injEq, Prod.mk.injEq, JsonValue.string.injEq, hraw.repaired,
        hraw'.repaired, true_and, and_true] at hfs'
      cases hfs'.2
      cases hspan
      rfl
    | identifier _ | string _ | call _ _ _ =>
      rw [typeName, typeName] at htype
      exact absurd htype (by decide)
  | string _ =>
    obtain ⟨htype, hspan, fs, hfs, hfs'⟩ := hv.same hv'
    cases h' with
    | string _ =>
      obtain ⟨hvalue, hraw⟩ := hc _ _ _ .refl
      obtain ⟨hvalue', hraw'⟩ := hc' _ _ _ .refl
      rw [Fields] at hfs hfs'
      rw [hfs] at hfs'
      simp only [List.cons.injEq, Prod.mk.injEq, JsonValue.string.injEq, true_and, and_true,
        Text.repaired_of_isWellFormed hvalue, Text.repaired_of_isWellFormed hvalue',
        Text.repaired_of_isWellFormed hraw, Text.repaired_of_isWellFormed hraw'] at hfs'
      obtain ⟨rfl, rfl⟩ := hfs'
      cases hspan
      rfl
    | identifier _ | number _ | call _ _ _ =>
      rw [typeName, typeName] at htype
      exact absurd htype (by decide)
  | call hcallee _ hargs ih =>
    obtain ⟨htype, hspan, fs, ⟨vs, hvs, hfs⟩, hfs'⟩ := hv.same hv'
    cases h' with
    | call hcallee' _ hargs' =>
      obtain ⟨vs', hvs', hfs'⟩ := hfs'
      rw [hfs] at hfs'
      simp only [List.cons.injEq, Prod.mk.injEq, JsonValue.array.injEq, true_and, and_true] at hfs'
      obtain ⟨hshown, rfl⟩ := hfs'
      cases hcallee.typed.eq_of_shown hcallee'.typed hshown
      cases hspan
      congr 1
      exact eq_of_forall₂ (shownAll_iff.1 hvs) (shownAll_iff.1 hvs') fun e he e' he' v =>
        ih e he (hargs' e' he') (hc.argument he) (hc'.argument he')
    | identifier _ | number _ | string _ =>
      rw [typeName, typeName] at htype
      exact absurd htype (by decide)

theorem map_shown_inj {ps ps' : List Identifier} (h : ∀ p ∈ ps, p.Typed) (h' : ∀ p ∈ ps', p.Typed)
    (heq : ps.map Identifier.shown = ps'.map Identifier.shown) : ps = ps' := by
  have shown (ps : List Identifier) :
      List.Forall₂ (fun p v => v = p.shown) ps (ps.map Identifier.shown) :=
    List.forall₂_map_right_iff.2 (List.forall₂_same.2 fun _ _ => rfl)
  refine eq_of_forall₂ (shown ps) (heq ▸ shown ps') fun p hp p' hp' v hv hv' => ?_
  exact (h p hp).eq_of_shown (h' p' hp') (hv.symm.trans hv')

theorem signatureValue_inj {id id' : Identifier} {ps ps' : List Identifier} {t t' : Option Text}
    (hid : id.Plain) (hid' : id'.Plain) (hps : ∀ p ∈ ps, p.Typed) (hps' : ∀ p ∈ ps', p.Typed)
    (ht : ∀ w ∈ t, IsName w) (ht' : ∀ w ∈ t', IsName w)
    (h : signatureValue id ps t = signatureValue id' ps' t') : id = id' ∧ ps = ps' ∧ t = t' := by
  simp only [signatureValue, List.cons_append, List.nil_append, List.cons.injEq, Prod.mk.injEq,
    JsonValue.array.injEq, true_and] at h
  obtain ⟨hshown, hparams, htype⟩ := h
  exact ⟨hid.typed.eq_of_shown hid'.typed hshown, map_shown_inj hps hps' hparams,
    typeValue_inj ht ht' htype⟩

/-- The types of the statements that are no expressions. -/
def Statement.types : List Text :=
  [utf8 "FunctionDeclaration", utf8 "FunctionDefinition", utf8 "ConstantDefinition",
    utf8 "ReturnStatement"]

theorem Expression.ne_typeName (e : Expression) {t : Text} (ht : t ∈ Statement.types) :
    t ≠ e.typeName := by
  rintro rfl
  revert ht
  cases e <;> rw [typeName] <;> decide

/-- An object shows one value of a return only, or none. -/
theorem argument_eq_of_fields {span : Span} {a a' : Option Expression}
    {fs : List (Text × JsonValue)} (h : ∀ e ∈ a, e.WellFormed) (h' : ∀ e ∈ a', e.WellFormed)
    (hc : (Node.statement (.return span a)).Clear) (hc' : (Node.statement (.return span a')).Clear)
    (hfs : (Statement.return span a).Fields fs) (hfs' : (Statement.return span a').Fields fs) :
    a = a' := by
  -- the object of an expression is not null
  have given {e : Expression} {fs : List (Text × JsonValue)}
      (hfs : (Statement.return span (some e)).Fields fs) :
      ¬ (Statement.return span none).Fields fs := by
    obtain ⟨_, ⟨_, -, rfl⟩, rfl⟩ := hfs
    simp [Statement.Fields, nodeValue]
  cases a with
  | none =>
    cases a' with
    | none => rfl
    | some e' => exact absurd hfs (given hfs')
  | some e =>
    cases a' with
    | none => exact absurd hfs' (given hfs)
    | some e' =>
      obtain ⟨v, hv, rfl⟩ := hfs
      obtain ⟨v', hv', heq⟩ := hfs'
      simp only [List.cons.injEq, Prod.mk.injEq, true_and, and_true] at heq
      subst heq
      rw [(h e rfl).eq_of_shown (h' e' rfl) (hc.child List.mem_cons_self)
        (hc'.child List.mem_cons_self) hv hv']

/-- **An object shows one statement only**, among those with well-formed strings. -/
theorem Statement.WellFormed.eq_of_shown {s s' : Statement} {v : JsonValue} (h : s.WellFormed)
    (h' : s'.WellFormed) (hc : (Node.statement s).Clear) (hc' : (Node.statement s').Clear)
    (hv : s.Shown v) (hv' : s'.Shown v) : s = s' := by
  induction h generalizing s' v with
  | declaration hid hps ht =>
    obtain ⟨htype, hspan, fs, hfs, hfs'⟩ := hv.same hv'
    cases h' with
    | declaration hid' hps' ht' =>
      have hsignature := signatureValue_inj hid hid' hps hps' (by simpa using ht)
        (by simpa using ht')
        (hfs.symm.trans hfs')
      obtain ⟨rfl, rfl, ht⟩ := hsignature
      cases ht
      cases hspan
      rfl
    | definition _ _ _ _ | constant _ _ | «return» _ =>
      rw [typeName, typeName] at htype
      exact absurd htype (by decide)
    | expression _ => exact absurd htype (Expression.ne_typeName _ (by simp [types, typeName]))
  | definition hid hps ht hbody ih =>
    obtain ⟨htype, hspan, fs, ⟨vs, hvs, hfs⟩, hfs'⟩ := hv.same hv'
    cases h' with
    | definition hid' hps' ht' hbody' =>
      obtain ⟨vs', hvs', hfs'⟩ := hfs'
      obtain ⟨hsignature, hblock⟩ := List.append_inj' (hfs.symm.trans hfs') rfl
      obtain ⟨rfl, rfl, rfl⟩ := signatureValue_inj hid hid' hps hps' ht ht' hsignature
      simp only [List.cons.injEq, Prod.mk.injEq, true_and, and_true] at hblock
      obtain ⟨-, rfl, hvalues⟩ := nodeValue_inj hblock
      simp only [List.cons.injEq, Prod.mk.injEq, JsonValue.array.injEq, true_and,
        and_true] at hvalues
      subst hvalues
      cases hspan
      congr 1
      exact eq_of_forall₂ (shownAll_iff.1 hvs) (shownAll_iff.1 hvs') fun s hs s' hs' v =>
        ih s hs (hbody' s' hs') (hc.body hs) (hc'.body hs')
    | declaration _ _ _ | constant _ _ | «return» _ =>
      rw [typeName, typeName] at htype
      exact absurd htype (by decide)
    | expression _ => exact absurd htype (Expression.ne_typeName _ (by simp [types, typeName]))
  | constant hid hvalue =>
    obtain ⟨htype, hspan, fs, ⟨w, hw, hfs⟩, hfs'⟩ := hv.same hv'
    cases h' with
    | constant hid' hvalue' =>
      obtain ⟨w', hw', hfs'⟩ := hfs'
      rw [hfs] at hfs'
      simp only [List.cons.injEq, Prod.mk.injEq, true_and, and_true] at hfs'
      obtain ⟨hshown, rfl⟩ := hfs'
      cases hid.eq_of_shown hid' hshown
      cases hspan
      congr 1
      exact hvalue.eq_of_shown hvalue' (hc.child (List.mem_cons_of_mem _ List.mem_cons_self))
        (hc'.child (List.mem_cons_of_mem _ List.mem_cons_self)) hw hw'
    | declaration _ _ _ | definition _ _ _ _ | «return» _ =>
      rw [typeName, typeName] at htype
      exact absurd htype (by decide)
    | expression _ => exact absurd htype (Expression.ne_typeName _ (by simp [types, typeName]))
  | «return» h =>
    obtain ⟨htype, hspan, fs, hfs, hfs'⟩ := hv.same hv'
    cases h' with
    | «return» h' =>
      cases hspan
      rw [argument_eq_of_fields h h' hc hc' hfs hfs']
    | declaration _ _ _ | definition _ _ _ _ | constant _ _ =>
      rw [typeName, typeName] at htype
      exact absurd htype (by decide)
    | expression _ => exact absurd htype (Expression.ne_typeName _ (by simp [types, typeName]))
  | expression h =>
    cases h' with
    | expression h' => rw [h.eq_of_shown h' hc hc' hv hv']
    | declaration _ _ _ | definition _ _ _ _ | constant _ _ | «return» _ =>
      obtain ⟨htype, -⟩ := hv.same hv'
      exact absurd htype.symm (Expression.ne_typeName _ (by simp [types, typeName]))

theorem Program.WellFormed.eq_of_shown {p q : Program} {v : JsonValue} (hp : p.WellFormed)
    (hq : q.WellFormed) (hc : (Node.program p).Clear) (hc' : (Node.program q).Clear)
    (hv : p.Shown v) (hv' : q.Shown v) : p = q := by
  obtain ⟨span, body⟩ := p
  obtain ⟨span', body'⟩ := q
  obtain ⟨vs, hvs, rfl⟩ := hv
  obtain ⟨vs', hvs', h⟩ := hv'
  obtain ⟨-, hspan, hfields⟩ := nodeValue_inj h
  simp only [List.cons.injEq, Prod.mk.injEq, JsonValue.array.injEq, true_and,
    and_true] at hfields hspan
  subst hfields
  have hbody : body = body' :=
    eq_of_forall₂ (Statement.shownAll_iff.1 hvs) (Statement.shownAll_iff.1 hvs')
      fun s hs s' hs' v =>
      (hp s hs).eq_of_shown (hq s' hs') (hc.child hs) (hc'.child hs')
  rw [hspan, hbody]

/-! ### Parsed programs -/

/-- The node of a string comes from a string token. -/
theorem Grammar.Phrase.exists_string {q : Phrase} {span : Span} {value raw : Text}
    (h : q.tree = .expression (.string span value raw)) :
    ∃ t : Token, (.string, t) ∈ q.core ∧ value = (t.text.drop 1).dropLast ∧ raw = t.text := by
  have expr {e : Expr Token} (h : e.tree = .string span value raw) :
      ∃ t : Token, (.string, t) ∈ e.leaves ∧ value = (t.text.drop 1).dropLast ∧ raw = t.text := by
    cases e with
    | string t =>
      rw [Expr.tree] at h
      cases h
      exact ⟨t, by simp [Expr.leaves], rfl, rfl⟩
    | name n | number n | call f o as c =>
      rw [Expr.tree] at h
      cases h
  cases q with
  | name p => cases h
  | expr e => exact expr (Statement.expression.inj h)
  | block o body c => cases h
  | stmt s =>
    cases s with
    | expression e c => exact expr (Statement.expression.inj h)
    | declaration d f n ps t c | definition f n ps t o body c | constant k id a e c | «return» k e c =>
      rw [tree, Stmt.tree] at h
      cases h

/-- The strings of a program that was parsed from well-formed UTF-8 are well formed. -/
theorem clear_of_parse {maxDepth : Int} {src : Text} {p : Program} (hp : parse maxDepth src = .ok p)
    (hsrc : src.isWellFormed = true) : (Node.program p).Clear := by
  obtain ⟨-, d, hd, -, rfl⟩ := parse_eq_ok_iff.1 hp
  intro span value raw hnode
  rcases Program.HasNode.exists_phrase hnode rfl with h | ⟨q, hq, hcore, -⟩
  · cases h
  · obtain ⟨t, ht, rfl, rfl⟩ := Phrase.exists_string (Node.statement.inj hq).symm
    have hmem : (Kind.string, t) ∈ (tokenize src).tokens.map fun t => (t.kind, t) :=
      hd ▸ hcore.subset ht
    obtain ⟨t, htokens, e⟩ := List.mem_map.1 hmem
    obtain ⟨hkind, rfl⟩ := Prod.mk.inj e
    have hstands := standsIn_of_mem_tokenize htokens
    obtain ⟨a, c, hcut⟩ := hstands.exists_append
    have hlexeme := hstands.lexeme
    rw [hkind] at hlexeme
    obtain ⟨v, hv⟩ := hlexeme
    have hvalue : (t.text.drop 1).dropLast = v := by
      obtain ⟨q, -, -, e⟩ := hv
      simp [e]
    rw [hvalue]
    exact hv.isWellFormed (hcut ▸ hsrc)

theorem wellFormed_of_parse {maxDepth : Int} {src : Text} {p : Program}
    (hp : parse maxDepth src = .ok p) : p.WellFormed := by
  obtain ⟨-, d, hd, -, rfl⟩ := parse_eq_ok_iff.1 hp
  rw [Program.WellFormed, Stmt.treeAll_eq]
  simp only [List.mem_map]
  rintro _ ⟨s, hs, rfl⟩
  refine Stmt.tree_wellFormed fun l hl => ?_
  have hmem : l ∈ (tokenize src).tokens.map fun t => (t.kind, t) := by
    rw [← hd, Stmt.leavesAll_eq]
    exact List.mem_flatMap_of_mem hs hl
  obtain ⟨t, ht, rfl⟩ := List.mem_map.1 hmem
  exact lexeme_of_mem_tokenize ht

/-- **The JSON of a parsed program is well formed and loses nothing**, as long as at most 10000
lists and objects stand inside one another in the object of the program; and so they do for every
program that is parsed with a limit on nesting up to 3331. Then a text is written. It is a JSON
text, and what it stands for is the object of the program. Of the programs that are parsed from
well-formed UTF-8, no two have the same text, whatever the limits on nesting were. A program whose
object goes deeper is not written. -/
theorem writeJson_lossless {maxDepth : Int} {src : Text} {p : Program}
    (hp : parse maxDepth src = .ok p) :
    ∃ v, p.Shown v ∧ (depthLimit maxDepth ≤ 3331 → v.nesting ≤ 10000) ∧
      (v.nesting ≤ 10000 →
        ∃ t, Node.writeJson (.program p) = .ok t ∧ JsonValue.read? t = some v ∧
          (src.isWellFormed = true → ∀ (maxDepth' : Int) (src' : Text) (q : Program),
            parse maxDepth' src' = .ok q → src'.isWellFormed = true →
            Node.writeJson (.program q) = .ok t → q = p)) ∧
      (10000 < v.nesting →
        ∃ way, Node.writeJson (.program p) = .error ⟨utf8 "Program" :: way, .tooDeep⟩) := by
  have hw := wellFormed_of_parse hp
  have hdepth := nesting_toJson_of_parse hp
  refine ⟨p.toJson.value, hw.shown, ?_⟩
  rw [Json.nesting_value]
  refine ⟨fun hlimit => by omega, ?_⟩
  rcases hw.writable_cases with ⟨hle, hwritable⟩ | ⟨hdeep, way, hwritable⟩
  · refine ⟨fun _ => ⟨p.toJson.compact, by rw [Node.writeJson, hwritable]; rfl,
      Json.read?_compact _, ?_⟩, fun hdeep => absurd hle (Nat.not_le.2 hdeep)⟩
    intro hsrc maxDepth' src' q hq hsrc' htext
    have hw' := wellFormed_of_parse hq
    have hvalue : q.toJson.value = p.toJson.value := by
      have hread := Json.read?_compact q.toJson
      rw [← hw'.eq_compact htext, Json.read?_compact] at hread
      exact (Option.some.inj hread).symm
    exact hw'.eq_of_shown hw (clear_of_parse hq hsrc') (clear_of_parse hp hsrc) hw'.shown
      (hvalue ▸ hw.shown)
  · refine ⟨fun hle => absurd hle (Nat.not_le.2 hdeep), fun _ => ⟨way, ?_⟩⟩
    rw [Node.writeJson, hwritable]
    rfl

/-- A program with a type that is given and one that is not, a string with characters that are
escaped, and a return without a value. -/
def escapedProgram : Text := utf8 "const k: T = f('\"<é\\', 007);\nfunction g(a) \x7b return; \x7d"

theorem writeJson_lossless_escaped : ∃ p v t, parse 2 escapedProgram = .ok p ∧ p.Shown v ∧
    v.nesting ≤ 10000 ∧ escapedProgram.isWellFormed = true ∧ Node.writeJson (.program p) = .ok t ∧
    JsonValue.read? t = some v ∧
    ∀ (maxDepth : Int) (src : Text) (q : Program), parse maxDepth src = .ok q →
      src.isWellFormed = true → Node.writeJson (.program q) = .ok t → q = p := by
  have hsrc : escapedProgram.isWellFormed = true := by decide +kernel
  obtain ⟨p, hp⟩ : ∃ p, parse 2 escapedProgram = .ok p := exists_ok_of_map (by decide +kernel)
  obtain ⟨v, hshown, hflat, hwritten, -⟩ := writeJson_lossless hp
  obtain ⟨t, htext, hread, hunique⟩ := hwritten (hflat (by decide))
  exact ⟨p, v, t, hp, hshown, hflat (by decide), hsrc, htext, hread, hunique hsrc⟩

/-- Of 4999 nested calls no text is written, though they are a program under a limit of 4999. -/
theorem not_writeJson_nestedCalls : ∃ p, parse 4999 (nestedCallsText 4999 ++ utf8 ";") = .ok p ∧
    ∀ t, Node.writeJson (.program p) ≠ .ok t := by
  obtain ⟨p, hp, hnesting⟩ := exists_parse_nestedCalls (n := 4999) (Nat.succ_pos _)
  refine ⟨p, hp, fun t ht => ?_⟩
  rcases (wellFormed_of_parse hp).writable_cases with ⟨hle, -⟩ | ⟨-, way, hwritable⟩
  · rw [hnesting] at hle
    exact absurd hle (by decide)
  · rw [Node.writeJson, hwritable] at ht
    cases ht

end Scriptlet
