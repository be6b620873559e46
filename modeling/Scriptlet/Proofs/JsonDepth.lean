import Scriptlet.Proofs.JsonText
import Scriptlet.Proofs.RoundTrip
import Scriptlet.Tree.Json

/-!
# How deep the JSON of a program goes

Before a node is written, the writer finds out how deep its JSON goes, and stops at the first node
that turns out too deep where it stands. For a program that a text may have, this finds the nesting
of the JSON if that keeps to the limit, and fails for no other reason than that it does not
(`Program.WellFormed.writable_cases`).

A call nests one object and one list, and the body of a function two objects and one list. So the
limit on the nesting of a text keeps the JSON flat as well: under a limit of `D` it goes at most
`3 * D + 5` deep (`nesting_toJson_of_parse`). Beyond that limit there are programs that are not
written: calls that are nested deep enough (`exists_parse_nestedCalls`).
-/

namespace Scriptlet

/-! ### Nesting of objects -/

namespace Json

theorem nestingFields_append (fs gs : List (Text × Json)) :
    nestingFields (fs ++ gs) = max (nestingFields fs) (nestingFields gs) := by
  induction fs with
  | nil => simp [nestingFields]
  | cons f fs ih =>
    obtain ⟨name, v⟩ := f
    rw [List.cons_append, nestingFields, ih, nestingFields, Nat.max_assoc]

theorem nestingAll_le_iff {es : List Json} {n : Nat} :
    nestingAll es ≤ n ↔ ∀ e ∈ es, e.nesting ≤ n := by
  induction es with
  | nil => simp [nestingAll]
  | cons e es ih => rw [nestingAll, Nat.max_le, List.forall_mem_cons, ih]

end Json

open Grammar
open Json (nestingFields)

@[simp] theorem nesting_nodeObject (type : Text) (span : Span) (fields : List (Text × Json)) :
    (nodeObject type span fields).nesting = nestingFields fields + 1 := by
  simp [nodeObject, Json.nesting, nestingFields]

@[simp] theorem nestingFields_typeField (name : String) (t : Option Text) :
    nestingFields (typeField name t) = 0 := by
  cases t <;> rfl

@[simp] theorem Identifier.nesting_toJson (id : Identifier) : id.toJson.nesting = 1 := by
  simp [Identifier.toJson, nestingFields, Json.nesting]

theorem nestingAll_names (params : List Identifier) :
    Json.nestingAll (params.map Identifier.toJson) = if params.isEmpty then 0 else 1 := by
  induction params with
  | nil => rfl
  | cons id params ih =>
    rw [List.map_cons, Json.nestingAll, ih, Identifier.nesting_toJson]
    cases params <;> rfl

theorem nestingFields_signatureFields (id : Identifier) (params : List Identifier)
    (returnType : Option Text) :
    nestingFields (signatureFields id params returnType) + 1 = signatureDepth params := by
  have hfields : nestingFields (signatureFields id params returnType) =
      Json.nestingAll (params.map Identifier.toJson) + 1 := by
    simp [signatureFields, nestingFields, Json.nesting]
  rw [hfields, nestingAll_names, signatureDepth]
  cases params <;> rfl

theorem Expression.nesting_call (span : Span) (callee : Identifier) (args : List Expression) :
    (Expression.call span callee args).toJson.nesting =
      Json.nestingAll (Expression.toJsonAll args) + 2 := by
  simp [Expression.toJson, nestingFields, Json.nesting]

theorem Statement.nesting_definition (span bodySpan : Span) (id : Identifier)
    (params : List Identifier) (returnType : Option Text) (body : List Statement) :
    (Statement.definition span id params returnType bodySpan body).toJson.nesting =
      max (signatureDepth params) (1 + (Json.nestingAll (Statement.toJsonAll body) + 2)) := by
  rw [← nestingFields_signatureFields id params returnType, Statement.toJson, nesting_nodeObject,
    Json.nestingFields_append]
  simp [nestingFields, Json.nesting]
  omega

theorem Statement.nesting_constant (span : Span) (id : Identifier) (value : Expression) :
    (Statement.constant span id value).toJson.nesting = max 2 (1 + value.toJson.nesting) := by
  simp [Statement.toJson, nestingFields]
  omega

theorem Statement.nesting_return (span : Span) (e : Expression) :
    (Statement.return span (some e)).toJson.nesting = 1 + e.toJson.nesting := by
  simp [Statement.toJson, nestingFields, Nat.add_comm]

theorem Program.nesting_toJson (p : Program) :
    p.toJson.nesting = Json.nestingAll (Statement.toJsonAll p.body) + 2 := by
  simp [Program.toJson, nestingFields, Json.nesting]

/-! ### What the writer finds -/

/-- What was found is right for JSON that goes `depth` deep: the depth if it keeps to the limit, and
otherwise a place where it does not. -/
def Limits (depth : Nat) (found : Except Unwritable Nat) : Prop :=
  depth ≤ Json.nestingLimit ∧ found = .ok depth ∨
    Json.nestingLimit < depth ∧ ∃ way, found = .error ⟨way, .tooDeep⟩

section Limits

variable {depth depth' : Nat} {found found' : Except Unwritable Nat}

theorem limits_ok (h : depth ≤ Json.nestingLimit) : Limits depth (.ok depth) := .inl ⟨h, rfl⟩

theorem Limits.placed (h : Limits depth found) (type : Text) (around : Nat) :
    Limits (around + depth) (placed type around found) := by
  rcases h with ⟨-, rfl⟩ | ⟨hdeep, way, rfl⟩
  · rw [Scriptlet.placed]
    split_ifs with hlimit
    · exact limits_ok hlimit
    · exact .inr ⟨Nat.lt_of_not_le hlimit, [type], rfl⟩
  · exact .inr ⟨Nat.lt_of_lt_of_le hdeep (Nat.le_add_left _ _), type :: way, rfl⟩

theorem Limits.max (h : Limits depth found) (h' : Limits depth' found') :
    Limits (max depth depth') (do return max (← found) (← found')) := by
  rcases h with ⟨hle, rfl⟩ | ⟨hdeep, way, rfl⟩
  · rcases h' with ⟨hle', rfl⟩ | ⟨hdeep, way, rfl⟩
    · exact limits_ok (Nat.max_le.2 ⟨hle, hle'⟩)
    · exact .inr ⟨Nat.lt_of_lt_of_le hdeep (Nat.le_max_right _ _), way, rfl⟩
  · exact .inr ⟨Nat.lt_of_lt_of_le hdeep (Nat.le_max_left _ _), way, rfl⟩

theorem Limits.atLeast (h : Limits depth found) {n : Nat} (hn : n ≤ Json.nestingLimit) :
    Limits (Nat.max n depth) (found.map (Nat.max n)) := by
  rcases h with ⟨hle, rfl⟩ | ⟨hdeep, way, rfl⟩
  · exact limits_ok (Nat.max_le.2 ⟨hn, hle⟩)
  · exact .inr ⟨Nat.lt_of_lt_of_le hdeep (Nat.le_max_right _ _), way, rfl⟩

end Limits

theorem signatureDepth_le (params : List Identifier) :
    signatureDepth params ≤ Json.nestingLimit := by
  rw [signatureDepth, Json.nestingLimit]
  split <;> decide

theorem Expression.limits_in {es : List Expression}
    (h : ∀ e ∈ es, Limits e.toJson.nesting e.jsonDepth) :
    Limits (Json.nestingAll (Expression.toJsonAll es) + 2) (Expression.jsonDepthIn es) := by
  induction es with
  | nil => exact limits_ok (by decide)
  | cons e es ih =>
    obtain ⟨he, hes⟩ := List.forall_mem_cons.1 h
    have hmax := (he.placed e.typeName 2).max (ih hes)
    rw [Nat.add_comm 2, Nat.add_max_add_right] at hmax
    exact hmax

theorem Statement.limits_in {body : List Statement}
    (h : ∀ s ∈ body, Limits s.toJson.nesting s.jsonDepth) :
    Limits (Json.nestingAll (Statement.toJsonAll body) + 2) (Statement.jsonDepthIn body) := by
  induction body with
  | nil => exact limits_ok (by decide)
  | cons s body ih =>
    obtain ⟨hs, hbody⟩ := List.forall_mem_cons.1 h
    have hmax := (hs.placed s.typeName 2).max (ih hbody)
    rw [Nat.add_comm 2, Nat.add_max_add_right] at hmax
    exact hmax

theorem Binary64.ofRatio_ne_nan (negative : Bool) (n d : Nat) : ofRatio negative n d ≠ .nan := by
  have parts (m : Nat) (e : Int) : ofParts negative m e ≠ .nan := by
    unfold ofParts
    split <;> simp
  unfold ofRatio
  split
  · simp [zero]
  · dsimp only
    split <;> split <;> exact parts _ _

theorem Binary64.ofDigits_ne_nan (t : Text) : Binary64.ofDigits t ≠ .nan := by
  unfold ofDigits ofDecimal
  dsimp only
  split
  · simp [zero]
  · split
    · simp
    · split <;> exact ofRatio_ne_nan _ _ _

theorem Expression.WellFormed.limits {e : Expression} (h : e.WellFormed) :
    Limits e.toJson.nesting e.jsonDepth := by
  induction h with
  | identifier _ => exact Identifier.nesting_toJson _ ▸ limits_ok (by decide)
  | number _ =>
    rw [Expression.jsonDepth, if_neg (Binary64.ofDigits_ne_nan _)]
    exact limits_ok (Nat.le_of_ble_eq_true rfl)
  | string _ => exact limits_ok (Nat.le_of_ble_eq_true rfl)
  | call _ _ _ ih =>
    rw [Expression.nesting_call, Expression.jsonDepth]
    exact Expression.limits_in ih

theorem Statement.WellFormed.limits {s : Statement} (h : s.WellFormed) :
    Limits s.toJson.nesting s.jsonDepth := by
  induction h with
  | declaration _ _ _ =>
    rw [Statement.toJson, nesting_nodeObject, nestingFields_signatureFields, Statement.jsonDepth]
    exact limits_ok (signatureDepth_le _)
  | definition _ _ _ _ ih =>
    rw [Statement.nesting_definition, Statement.jsonDepth]
    exact ((Statement.limits_in ih).placed _ 1).atLeast (signatureDepth_le _)
  | constant _ hvalue =>
    rw [Statement.nesting_constant, Statement.jsonDepth]
    exact (hvalue.limits.placed _ 1).atLeast (by decide)
  | @«return» span argument h =>
    cases argument with
    | none => exact limits_ok (Nat.le_of_ble_eq_true rfl)
    | some e =>
      rw [Statement.nesting_return, Statement.jsonDepth]
      exact (h e rfl).limits.placed _ 1
  | expression h => exact h.limits

/-- **A program that a text may have is written, unless its JSON goes too deep.** -/
theorem Program.WellFormed.writable_cases {p : Program} (h : p.WellFormed) :
    p.toJson.nesting ≤ Json.nestingLimit ∧ (Node.program p).writable = .ok p.toJson ∨
      Json.nestingLimit < p.toJson.nesting ∧
        ∃ way, (Node.program p).writable = .error ⟨utf8 "Program" :: way, .tooDeep⟩ := by
  have hbody := Statement.limits_in fun s hs => (h s hs).limits
  rw [← Program.nesting_toJson] at hbody
  simp only [Node.writable, Node.jsonDepth, Node.typeName]
  rcases hbody with ⟨hle, hfound⟩ | ⟨hdeep, way, hfound⟩
  · refine .inl ⟨hle, ?_⟩
    rw [hfound, placed, Nat.zero_add, if_pos hle]
    rfl
  · exact .inr ⟨hdeep, way, by rw [hfound]; rfl⟩

/-! ### The nesting of the text and of its JSON -/

mutual
theorem Expression.nesting_toJson_le : ∀ e : Expression, e.toJson.nesting ≤ 2 * e.nesting + 1
  | .identifier id => by simp [Expression.toJson]
  | .number _ _ _ => Nat.le_add_left _ _
  | .string _ _ _ => Nat.le_add_left _ _
  | .call span callee args => by
    have hargs := Expression.nestingAll_toJsonAll_le args
    rw [Expression.nesting_call, Expression.nesting]
    omega

theorem Expression.nestingAll_toJsonAll_le : ∀ es : List Expression,
    Json.nestingAll (Expression.toJsonAll es) ≤ 2 * Expression.nestingAll es + 1
  | [] => Nat.zero_le _
  | e :: es => by
    have he := e.nesting_toJson_le
    have hes := Expression.nestingAll_toJsonAll_le es
    rw [Expression.toJsonAll, Json.nestingAll, Expression.nestingAll]
    omega
end

mutual
theorem Statement.nesting_toJson_le : ∀ s : Statement, s.toJson.nesting ≤ 3 * s.nesting + 3
  | .declaration _ id params returnType => by
    rw [Statement.toJson, nesting_nodeObject, nestingFields_signatureFields, signatureDepth]
    split <;> omega
  | .definition _ id params returnType _ body => by
    have hbody := Statement.nestingAll_toJsonAll_le body
    rw [Statement.nesting_definition, Statement.nesting, signatureDepth]
    split <;> omega
  | .constant _ _ value => by
    have hvalue := value.nesting_toJson_le
    rw [Statement.nesting_constant, Statement.nesting]
    omega
  | .return _ none => by
    rw [Statement.toJson, nesting_nodeObject]
    exact Nat.le_add_left _ _
  | .return _ (some e) => by
    have he := e.nesting_toJson_le
    rw [Statement.nesting_return, Statement.nesting, Option.elim_some]
    omega
  | .expression e => by
    have he := e.nesting_toJson_le
    rw [Statement.toJson, Statement.nesting]
    omega
  | .block _ body => by
    have hbody := Statement.nestingAll_toJsonAll_le body
    simp only [Statement.toJson, nesting_nodeObject, nestingFields, Json.nesting, Statement.nesting]
    omega

theorem Statement.nestingAll_toJsonAll_le : ∀ body : List Statement,
    Json.nestingAll (Statement.toJsonAll body) ≤ 3 * Statement.nestingAll body + 3
  | [] => Nat.zero_le _
  | s :: body => by
    have hs := s.nesting_toJson_le
    have hbody := Statement.nestingAll_toJsonAll_le body
    rw [Statement.toJsonAll, Json.nestingAll, Statement.nestingAll]
    omega
end

theorem Program.nesting_toJson_le (p : Program) : p.toJson.nesting ≤ 3 * p.nesting + 5 := by
  have hbody := Statement.nestingAll_toJsonAll_le p.body
  rw [Program.nesting_toJson, Program.nesting]
  omega

namespace Grammar

mutual
theorem Expr.nesting_tree : ∀ e : Expr Token, e.tree.nesting = e.nesting
  | .name _ => rfl
  | .number _ => rfl
  | .string _ => rfl
  | .call _ _ as _ => congrArg (· + 1) (Expr.nestingAll_treeAll as)

theorem Expr.nestingAll_treeAll : ∀ as : CommaList Token (Expr Token),
    Expression.nestingAll (Expr.treeAll as) = Expr.nestingAll as
  | .one e => (Nat.max_zero _).trans e.nesting_tree
  | .more e _ as => congrArg₂ max e.nesting_tree (Expr.nestingAll_treeAll as)
end

mutual
theorem Stmt.nesting_tree : ∀ s : Stmt Token, s.tree.nesting = s.nesting
  | .declaration _ _ _ _ _ _ => rfl
  | .definition _ _ _ _ _ body _ => congrArg (· + 1) (Stmt.nestingAll_treeAll body)
  | .constant _ _ _ e _ => e.nesting_tree
  | .return _ none _ => rfl
  | .return _ (some e) _ => e.nesting_tree
  | .expression e _ => e.nesting_tree

theorem Stmt.nestingAll_treeAll : ∀ body : List (Stmt Token),
    Statement.nestingAll (Stmt.treeAll body) = Stmt.nestingAll body
  | [] => rfl
  | s :: body => congrArg₂ max s.nesting_tree (Stmt.nestingAll_treeAll body)
end

end Grammar

/-- **The JSON of a parsed program goes at most three times as deep as its text may**, and five
levels more. -/
theorem nesting_toJson_of_parse {maxDepth : Int} {src : Text} {p : Program}
    (h : parse maxDepth src = .ok p) : p.toJson.nesting ≤ 3 * depthLimit maxDepth + 5 := by
  obtain ⟨-, d, -, hnesting, rfl⟩ := parse_eq_ok_iff.1 h
  have hle := Program.nesting_toJson_le ⟨⟨0, src.length⟩, Stmt.treeAll d⟩
  rw [Program.nesting, Stmt.nestingAll_treeAll] at hle
  omega

/-! ### Nested calls -/

mutual
theorem Expression.nesting_toJson_eraseSpans : ∀ e : Expression,
    e.eraseSpans.toJson.nesting = e.toJson.nesting
  | .identifier _ => by simp [Expression.eraseSpans, Expression.toJson]
  | .number _ _ _ => rfl
  | .string _ _ _ => rfl
  | .call _ _ args => by
    rw [Expression.eraseSpans, Expression.nesting_call, Expression.nesting_call,
      Expression.nestingAll_toJsonAll_eraseSpans args]

theorem Expression.nestingAll_toJsonAll_eraseSpans : ∀ es : List Expression,
    Json.nestingAll (Expression.toJsonAll (Expression.eraseSpansAll es)) =
      Json.nestingAll (Expression.toJsonAll es)
  | [] => rfl
  | e :: es =>
    congrArg₂ max e.nesting_toJson_eraseSpans (Expression.nestingAll_toJsonAll_eraseSpans es)
end

/-- The name of the function that is called. -/
def calledName : Identifier := ⟨⟨0, 0⟩, utf8 "f", none⟩

/-- The number one in `n` calls. -/
def nestedCalls : (n : Nat) → Expression
  | 0 => .number ⟨0, 0⟩ (Binary64.ofDigits (utf8 "1")) (utf8 "1")
  | n + 1 => .call ⟨0, 0⟩ calledName [nestedCalls n]

/-- The text of the number one in `n` calls. -/
def nestedCallsText : (n : Nat) → Text
  | 0 => utf8 "1"
  | n + 1 => utf8 "f(" ++ nestedCallsText n ++ utf8 ")"

/-- The program of one statement that is an expression. -/
def Expression.alone (e : Expression) : Program := ⟨⟨0, 0⟩, [.expression e]⟩

theorem render_nestedCalls (n : Nat) : (nestedCalls n).render = nestedCallsText n := by
  induction n with
  | zero => rfl
  | succ n ih =>
    rw [nestedCalls, Expression.render, Expression.renderAll, ih, Expression.renderAll, Text.join,
      List.intercalate_singleton, nestedCallsText]
    rfl

theorem nestedCalls_wellFormed (n : Nat) : (nestedCalls n).WellFormed := by
  have hname : IsName (utf8 "f") := ⟨⟨102, [], rfl, rfl⟩, List.all_eq_true.1 (by decide), by decide⟩
  induction n with
  | zero => exact .number ⟨by decide, List.forall_mem_singleton.2 rfl⟩
  | succ n ih => exact .call ⟨hname, rfl⟩ (List.cons_ne_nil _ _) (List.forall_mem_singleton.2 ih)

theorem nesting_nestedCalls (n : Nat) : (nestedCalls n).nesting = n := by
  induction n with
  | zero => rfl
  | succ n ih => simp [nestedCalls, Expression.nesting, Expression.nestingAll, ih]

theorem nesting_toJson_nestedCalls (n : Nat) : (nestedCalls n).toJson.nesting = 2 * n + 1 := by
  induction n with
  | zero => rfl
  | succ n ih =>
    rw [nestedCalls, Expression.nesting_call, Expression.toJsonAll, Json.nestingAll, ih]
    simp only [Expression.toJsonAll, Json.nestingAll]
    omega

/-- Nested calls are a program, if the limit lets them, and the JSON of that goes twice as deep. -/
theorem exists_parse_nestedCalls {n : Nat} (hn : 0 < n) :
    ∃ p, parse n (nestedCallsText n ++ utf8 ";") = .ok p ∧ p.toJson.nesting = 2 * n + 3 := by
  have hlimit : depthLimit n = n := by
    rw [depthLimit, if_neg (by omega), Int.toNat_natCast]
  have hw : (nestedCalls n).alone.WellFormed :=
    List.forall_mem_singleton.2 (.expression (nestedCalls_wellFormed n))
  have hnesting : (nestedCalls n).alone.nesting ≤ depthLimit n := by
    simp [Expression.alone, Program.nesting, Statement.nestingAll, Statement.nesting,
      nesting_nestedCalls, hlimit]
  obtain ⟨p, hp, hspans⟩ := hw.exists_parse hnesting
  have hrender : (nestedCalls n).alone.render = nestedCallsText n ++ utf8 ";" := by
    rw [← render_nestedCalls, Program.render, Expression.alone, List.map_singleton, Text.join,
      List.intercalate_singleton]
    rfl
  rw [hrender] at hp
  refine ⟨p, hp, ?_⟩
  -- the one statement of the program is the calls but for their spans
  obtain ⟨span, body⟩ := p
  have hbody : Statement.eraseSpansAll body = [.expression (nestedCalls n).eraseSpans] :=
    congrArg Program.body hspans
  rw [Statement.eraseSpansAll_eq, List.map_eq_singleton_iff] at hbody
  obtain ⟨s, rfl, hs⟩ := hbody
  cases s with
  | expression e =>
    have he := e.nesting_toJson_eraseSpans
    rw [Statement.expression.inj hs, Expression.nesting_toJson_eraseSpans,
      nesting_toJson_nestedCalls] at he
    rw [Program.nesting_toJson]
    simp only [Statement.toJsonAll, Json.nestingAll, Statement.toJson, ← he]
    omega
  | declaration | definition | constant | «return» | block => cases hs

end Scriptlet
