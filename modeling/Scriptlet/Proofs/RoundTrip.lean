import Scriptlet.Proofs.Lines
import Scriptlet.Proofs.WellFormed
import Scriptlet.Tree.Printer

/-!
# Parsing undoes printing

A well-formed tree that is written as source text and parsed again is the same tree but for its
spans. Each part of the tree is written as the leaves of a phrase, with layout between them
(`Writes`); the scanner reads these leaves back, because what the printer puts behind a lexeme never
goes on with it, and the phrase has the tree that was written.
-/

namespace Scriptlet

open Grammar

/-! ### Trees without spans -/

/-- The name without its span. -/
def Identifier.eraseSpan (id : Identifier) : Identifier := { id with span := ⟨0, 0⟩ }

mutual
/-- The expression without its spans. -/
def Expression.eraseSpans : Expression → Expression
  | .identifier id => .identifier id.eraseSpan
  | .number _ value raw => .number ⟨0, 0⟩ value raw
  | .string _ value raw => .string ⟨0, 0⟩ value raw
  | .call _ callee args => .call ⟨0, 0⟩ callee.eraseSpan (Expression.eraseSpansAll args)

/-- The expressions without their spans. -/
def Expression.eraseSpansAll : List Expression → List Expression
  | [] => []
  | e :: es => e.eraseSpans :: Expression.eraseSpansAll es
end

mutual
/-- The statement without its spans. -/
def Statement.eraseSpans : Statement → Statement
  | .declaration _ id params returnType =>
    .declaration ⟨0, 0⟩ id.eraseSpan (params.map Identifier.eraseSpan) returnType
  | .definition _ id params returnType _ body =>
    .definition ⟨0, 0⟩ id.eraseSpan (params.map Identifier.eraseSpan) returnType ⟨0, 0⟩
      (Statement.eraseSpansAll body)
  | .constant _ id value => .constant ⟨0, 0⟩ id.eraseSpan value.eraseSpans
  | .return _ argument => .return ⟨0, 0⟩ (argument.map Expression.eraseSpans)
  | .expression e => .expression e.eraseSpans
  | .block _ body => .block ⟨0, 0⟩ (Statement.eraseSpansAll body)

/-- The statements without their spans. -/
def Statement.eraseSpansAll : List Statement → List Statement
  | [] => []
  | s :: body => s.eraseSpans :: Statement.eraseSpansAll body
end

/-- The program without its spans. -/
def Program.eraseSpans (p : Program) : Program := ⟨⟨0, 0⟩, Statement.eraseSpansAll p.body⟩

theorem Expression.eraseSpansAll_eq (es : List Expression) :
    Expression.eraseSpansAll es = es.map Expression.eraseSpans := by
  induction es with
  | nil => rfl
  | cons e es ih => rw [Expression.eraseSpansAll, ih, List.map_cons]

theorem Statement.eraseSpansAll_eq (body : List Statement) :
    Statement.eraseSpansAll body = body.map Statement.eraseSpans := by
  induction body with
  | nil => rfl
  | cons s body ih => rw [Statement.eraseSpansAll, ih, List.map_cons]

/-! ### Nesting -/

mutual
/-- How many arguments are open at once in an expression, at most. -/
def Expression.nesting : Expression → Nat
  | .call _ _ args => Expression.nestingAll args + 1
  | _ => 0

/-- The nesting of arguments. -/
def Expression.nestingAll : List Expression → Nat
  | [] => 0
  | e :: es => max e.nesting (Expression.nestingAll es)
end

mutual
/-- How many blocks and arguments are open at once in a statement, at most. -/
def Statement.nesting : Statement → Nat
  | .declaration _ _ _ _ => 0
  | .definition _ _ _ _ _ body => Statement.nestingAll body + 1
  | .constant _ _ value => value.nesting
  | .return _ argument => argument.elim 0 Expression.nesting
  | .expression e => e.nesting
  | .block _ body => Statement.nestingAll body + 1

/-- The nesting of statements. -/
def Statement.nestingAll : List Statement → Nat
  | [] => 0
  | s :: body => max s.nesting (Statement.nestingAll body)
end

/-- How many blocks and arguments are open at once in a program, at most. -/
def Program.nesting (p : Program) : Nat := Statement.nestingAll p.body

theorem Expression.nestingAll_le_iff {es : List Expression} {n : Nat} :
    Expression.nestingAll es ≤ n ↔ ∀ e ∈ es, e.nesting ≤ n := by
  induction es with
  | nil => simp [Expression.nestingAll]
  | cons e es ih => rw [Expression.nestingAll, Nat.max_le, List.forall_mem_cons, ih]

theorem Statement.nestingAll_le_iff {body : List Statement} {n : Nat} :
    Statement.nestingAll body ≤ n ↔ ∀ s ∈ body, s.nesting ≤ n := by
  induction body with
  | nil => simp [Statement.nestingAll]
  | cons s body ih => rw [Statement.nestingAll, Nat.max_le, List.forall_mem_cons, ih]

/-! ### Writing -/

/-- The text `w` is read as the lexemes `ls`, whatever comes after it if it is `ok`. -/
def Writes (ok : Text → Prop) (w : Text) (ls : List (Kind × Text)) : Prop :=
  ∀ rest ls', ok rest → Spells rest ls' → Spells (w ++ rest) (ls ++ ls')

/-- Nothing goes on with a name or a number. -/
def Fresh (t : Text) : Prop := Stops .identifier t

/-- Anything may come after it. -/
def Always (_ : Text) : Prop := True

section Writes

variable {ok ok' : Text → Prop} {w w' : Text} {ls ls' : List (Kind × Text)}

theorem Writes.append (h : Writes ok w ls) (h' : Writes ok' w' ls')
    (hok : ∀ rest, ok' rest → ok (w' ++ rest)) : Writes ok' (w ++ w') (ls ++ ls') := by
  intro rest ls'' hrest hs
  rw [List.append_assoc, List.append_assoc]
  exact h _ _ (hok rest hrest) (h' _ _ hrest hs)

/-- What may be followed by anything may be written before anything. -/
theorem Writes.then (h : Writes Always w ls) (h' : Writes ok' w' ls') :
    Writes ok' (w ++ w') (ls ++ ls') := h.append h' fun _ _ => trivial

theorem Writes.mono (h : Writes ok w ls) (hok : ∀ rest, ok' rest → ok rest) : Writes ok' w ls :=
  fun _ _ hrest hs => h _ _ (hok _ hrest) hs

theorem Writes.of_eq (h : Writes ok w ls) (hw : w' = w) (hl : ls' = ls) : Writes ok w' ls' := by
  rwa [hw, hl]

theorem writes_lexeme {k : Kind} (h : Lexeme k w) : Writes (Stops k) w [(k, w)] :=
  fun _ _ hrest hs => .lexeme (.none _) h hrest hs

theorem writes_layout {b : UInt8} (hb : Rule.isLayout b.toNat = true)
    (he : Rune.encode b.toNat = [b]) : Writes Always [b] [] := by
  intro rest ls' _ hs
  have hgap : Gap ([b] ++ rest) rest := he ▸ (Passed.layout hb).gap
  cases hs with
  | done h => exact .done (hgap.trans h)
  | lexeme h hl hst hs => exact .lexeme (hgap.trans h) hl hst hs

theorem writes_space : Writes Always (utf8 " ") [] :=
  writes_layout (b := 32) (by decide) (by decide)

/-- A lexeme that nothing goes on with. -/
theorem writes_fixed {k : Kind} (h : Lexeme k w) (hk : ∀ b, k.continues b = false) :
    Writes Always w [(k, w)] := (writes_lexeme h).mono fun _ _ b _ => hk b

theorem writes_colon : Writes Always (utf8 ": ") [(.colon, utf8 ":")] :=
  have hl : Lexeme .colon (utf8 ":") := ⟨by decide, List.forall_mem_singleton.2 rfl⟩
  (writes_lexeme hl).append writes_space fun _ _ b hb => by rw [← Option.mem_some.1 hb]; rfl

theorem fresh_of_head {b : UInt8} {t : Text} (h : Rule.isNamePart b = false) : Fresh (b :: t) := by
  rintro _ ⟨⟩
  exact h

end Writes

theorem map_eq_map_of_forall₂ {X β γ : Type} {R : X → β → Prop} {f : β → γ} {g : X → γ}
    {xs : List X} {bs : List β} (h : List.Forall₂ R xs bs) (hfg : ∀ x b, R x b → f b = g x) :
    bs.map f = xs.map g := by
  induction h with
  | nil => rfl
  | cons hx _ ih => rw [List.map_cons, List.map_cons, hfg _ _ hx, ih]

theorem exists_mem_of_forall₂ {X β : Type} {R : X → β → Prop} {xs : List X} {bs : List β}
    (h : List.Forall₂ R xs bs) : ∀ b ∈ bs, ∃ x ∈ xs, R x b := by
  induction h with
  | nil => nofun
  | @cons x b _ _ hx _ ih =>
    intro b' hb'
    rcases List.mem_cons.1 hb' with rfl | hb'
    · exact ⟨x, List.mem_cons_self, hx⟩
    · obtain ⟨x', hx', hR⟩ := ih b' hb'
      exact ⟨x', List.mem_cons_of_mem _ hx', hR⟩

/-- What is written with commas in between is a list of phrases. -/
theorem exists_commaList {X β : Type} {render : X → Text} {leaves : β → List (Kind × Text)}
    {R : X → β → Prop} (hw : ∀ x b, R x b → Writes Fresh (render x) (leaves b)) {xs : List X}
    (hne : xs ≠ []) (hx : ∀ x ∈ xs, ∃ b, R x b) :
    ∃ l : CommaList Text β, List.Forall₂ R xs l.toList ∧
      Writes Fresh (Text.join (utf8 ", ") (xs.map render)) (l.leaves leaves) := by
  induction xs with
  | nil => exact absurd rfl hne
  | cons x xs ih =>
    obtain ⟨b, hb⟩ := hx x List.mem_cons_self
    cases xs with
    | nil => exact ⟨.one b, .cons hb .nil, by simpa [Text.join, CommaList.leaves] using hw x b hb⟩
    | cons y xs =>
      obtain ⟨l, hl, hwl⟩ :=
        ih (List.cons_ne_nil _ _) fun x hx' => hx x (List.mem_cons_of_mem _ hx')
      refine ⟨.more b (utf8 ",") l, .cons hb hl, ?_⟩
      have hcomma : Writes Always (utf8 ", ") [(.comma, utf8 ",")] :=
        (writes_fixed (k := .comma) rfl fun _ => rfl).then writes_space
      rw [List.map_cons, List.map_cons, Text.join_cons_cons]
      exact (hw x b hb).append (hcomma.then hwl) fun _ _ => fresh_of_head rfl

/-! ### Names and types -/

/-- A token of which only the spelling is known. -/
def bareToken (w : Text) : Token := ⟨.identifier, w, 0, 0⟩

/-- The name and its type are written as the phrase. -/
structure Identifier.WrittenAs (id : Identifier) (p : Param Text) : Prop where
  tree : (p.map bareToken).tree.eraseSpan = id.eraseSpan
  writes : Writes Fresh id.render p.leaves

theorem exists_typeMark {t : Option Text} (h : ∀ w ∈ t, IsName w) :
    ∃ ty : Option (TypeMark Text), ty.map TypeMark.name = t ∧
      Writes Fresh (typeMark t) (typeLeaves ty) := by
  cases t with
  | none => exact ⟨none, rfl, fun _ _ _ hs => hs⟩
  | some w =>
    exact ⟨some ⟨utf8 ":", w⟩, rfl, writes_colon.then (writes_lexeme (k := .identifier) (h w rfl))⟩

theorem Identifier.Typed.exists_written {id : Identifier} (h : id.Typed) : ∃ p, id.WrittenAs p := by
  obtain ⟨span, n, t⟩ := id
  obtain ⟨ty, rfl, hty⟩ := exists_typeMark h.typeName
  refine ⟨⟨n, ty⟩, ?_, ?_⟩
  · cases ty <;> rfl
  · refine (writes_lexeme (k := .identifier) h.name).append hty fun rest hrest => ?_
    cases ty with
    | none => exact hrest
    | some ty => exact fresh_of_head rfl

theorem writes_openParen : Writes Always (utf8 "(") [(.openParen, utf8 "(")] :=
  writes_fixed (k := .openParen) rfl fun _ => rfl

theorem writes_closeParen : Writes Always (utf8 ")") [(.closeParen, utf8 ")")] :=
  writes_fixed (k := .closeParen) rfl fun _ => rfl

theorem exists_params {params : List Identifier} (h : ∀ p ∈ params, p.Typed) :
    ∃ ps : Params Text, (ps.map bareToken).trees.map Identifier.eraseSpan =
      params.map Identifier.eraseSpan ∧
      Writes Always (renderParams params) ps.leaves := by
  by_cases hne : params = []
  · subst hne
    exact ⟨⟨utf8 "(", none, utf8 ")"⟩, rfl, writes_openParen.then writes_closeParen⟩
  · obtain ⟨l, hl, hw⟩ := exists_commaList (R := Identifier.WrittenAs) (fun _ _ h => h.writes) hne
      fun p hp => (h p hp).exists_written
    refine ⟨⟨utf8 "(", some l, utf8 ")"⟩, ?_, ?_⟩
    · have := map_eq_map_of_forall₂ hl fun _ _ => Identifier.WrittenAs.tree
      simpa [Params.map, Params.trees, Function.comp_def] using this
    · exact (writes_openParen.then hw).append writes_closeParen fun _ _ => fresh_of_head rfl

/-! ### Expressions -/

/-- The expression is written as the phrase. -/
structure Expression.WrittenAs (e : Expression) (d : Expr Text) : Prop where
  tree : (d.map bareToken).tree.eraseSpans = e.eraseSpans
  nesting : d.nesting ≤ e.nesting
  writes : Writes Fresh e.render d.leaves

theorem Expression.renderAll_eq (es : List Expression) :
    Expression.renderAll es = es.map Expression.render := by
  induction es with
  | nil => rfl
  | cons e es ih => rw [Expression.renderAll, ih, List.map_cons]

theorem stops_number_of_fresh {t : Text} (h : Fresh t) : Stops .number t := by
  intro b hb
  have := h b hb
  simp_all [Kind.continues, Rule.isNamePart]

theorem Expression.WellFormed.exists_written {e : Expression} (h : e.WellFormed) :
    ∃ d, e.WrittenAs d := by
  induction h with
  | @identifier id hid =>
    obtain ⟨span, n, t⟩ := id
    obtain ⟨hn, rfl⟩ := hid
    refine ⟨.name n, rfl, Nat.le_refl _, ?_⟩
    rw [render, Identifier.render, typeMark, List.append_nil]
    exact writes_lexeme (k := .identifier) hn
  | @number span raw hd =>
    exact ⟨.number raw, rfl, Nat.le_refl _,
      (writes_lexeme (k := .number) hd).mono fun _ => stops_number_of_fresh⟩
  | @string span value raw hq =>
    refine ⟨.string raw, ?_, Nat.le_refl _, (writes_lexeme (k := .string) ⟨value, hq⟩).mono ?_⟩
    · obtain ⟨q, -, -, rfl⟩ := hq
      simp [Expr.map, Expr.tree, eraseSpans, bareToken]
    · exact fun _ _ _ _ => rfl
  | @call span callee args hc hne _ ih =>
    obtain ⟨_, n, t⟩ := callee
    obtain ⟨hn, rfl⟩ := hc
    obtain ⟨l, hl, hw⟩ := exists_commaList (R := WrittenAs) (fun _ _ h => h.writes) hne ih
    refine ⟨.call n (utf8 "(") l (utf8 ")"), ?_, ?_, ?_⟩
    · have hargs := map_eq_map_of_forall₂ hl fun _ _ => WrittenAs.tree
      rw [Expr.map, Expr.tree, eraseSpans, eraseSpans, Expr.mapAll_eq, Expr.treeAll_eq,
        eraseSpansAll_eq, eraseSpansAll_eq, CommaList.toList_map, List.map_map, List.map_map]
      exact congrArg (Expression.call ⟨0, 0⟩ _) hargs
    · refine Nat.succ_le_succ (Expr.nestingAll_le_iff.2 fun d hd => ?_)
      obtain ⟨e, he, hed⟩ := exists_mem_of_forall₂ hl d hd
      exact Nat.le_trans hed.nesting (nestingAll_le_iff.1 (Nat.le_refl _) e he)
    · rw [render, renderAll_eq, Expr.leaves, Expr.leavesAll_eq]
      have hname := (writes_lexeme (k := .identifier) hn).append writes_openParen
        fun _ _ => fresh_of_head rfl
      exact ((hname.then hw).append writes_closeParen fun _ _ => fresh_of_head rfl).mono
        fun _ _ => trivial

/-! ### Statements -/

/-- The statement, with what ends it, is written as the phrase. -/
structure Statement.WrittenAs (s : Statement) (d : Stmt Text) : Prop where
  tree : (d.map bareToken).tree.eraseSpans = s.eraseSpans
  nesting : d.nesting ≤ s.nesting
  writes : Writes (Stops .semicolon) s.renderElement d.leaves

theorem Statement.renderAll_eq (body : List Statement) :
    Statement.renderAll body = body.map Statement.renderElement := by
  induction body with
  | nil => rfl
  | cons s body ih => rw [Statement.renderAll, ih, List.map_cons]; rfl

theorem writes_semicolon : Writes (Stops .semicolon) (utf8 ";") [(.semicolon, utf8 ";")] :=
  writes_lexeme (k := .semicolon) ⟨by decide, List.forall_mem_singleton.2 rfl⟩

/-- What is written with layout in between is the statements one after the other. -/
theorem exists_statements {sep : Text} (hsep : Writes Always sep [])
    (hstop : ∀ t, Stops .semicolon (sep ++ t)) {body : List Statement}
    (h : ∀ s ∈ body, ∃ d, s.WrittenAs d) :
    ∃ ds, List.Forall₂ Statement.WrittenAs body ds ∧
      Writes (Stops .semicolon) (Text.join sep (body.map Statement.renderElement))
        (Stmt.leavesAll ds) := by
  induction body with
  | nil => exact ⟨[], .nil, fun _ _ _ hs => hs⟩
  | cons s body ih =>
    obtain ⟨d, hd⟩ := h s List.mem_cons_self
    obtain ⟨ds, hds, hw⟩ := ih fun s hs => h s (List.mem_cons_of_mem _ hs)
    refine ⟨d :: ds, .cons hd hds, ?_⟩
    cases hds with
    | nil => simpa [Text.join, Stmt.leavesAll] using hd.writes
    | cons =>
      rw [List.map_cons, List.map_cons, Text.join_cons_cons]
      exact hd.writes.append (hsep.then hw) fun rest _ => by rw [List.append_assoc]; exact hstop _

theorem nestingAll_le_of_forall₂ {body : List Statement} {ds : List (Stmt Text)}
    (h : List.Forall₂ Statement.WrittenAs body ds) :
    Stmt.nestingAll ds ≤ Statement.nestingAll body := by
  refine Stmt.nestingAll_le_iff.2 fun d hd => ?_
  obtain ⟨s, hs, hsd⟩ := exists_mem_of_forall₂ h d hd
  exact Nat.le_trans hsd.nesting (Statement.nestingAll_le_iff.1 (Nat.le_refl _) s hs)

theorem treeAll_eq_of_forall₂ {body : List Statement} {ds : List (Stmt Text)}
    (h : List.Forall₂ Statement.WrittenAs body ds) :
    Statement.eraseSpansAll (Stmt.treeAll (Stmt.mapAll bareToken ds)) =
      Statement.eraseSpansAll body := by
  have := map_eq_map_of_forall₂ h fun _ _ => Statement.WrittenAs.tree
  rw [Stmt.mapAll_eq, Stmt.treeAll_eq, Statement.eraseSpansAll_eq, Statement.eraseSpansAll_eq,
    List.map_map, List.map_map]
  exact this

/-- A block is written as its statements between braces. -/
theorem exists_block {body : List Statement} (h : ∀ s ∈ body, ∃ d, s.WrittenAs d) :
    ∃ ds, List.Forall₂ Statement.WrittenAs body ds ∧
      Writes Always (renderBlock (Statement.renderAll body))
        ((.openBrace, utf8 "\x7b") :: (Stmt.leavesAll ds ++ [(.closeBrace, utf8 "\x7d")])) := by
  have hopen : Writes Always (utf8 "\x7b") [(.openBrace, utf8 "\x7b")] :=
    writes_fixed (k := .openBrace) rfl fun _ => rfl
  have hclose : Writes Always (utf8 "\x7d") [(.closeBrace, utf8 "\x7d")] :=
    writes_fixed (k := .closeBrace) rfl fun _ => rfl
  have hstop (t : Text) : Stops .semicolon (utf8 " " ++ t) := by
    rintro _ ⟨⟩
    rfl
  obtain ⟨ds, hds, hw⟩ := exists_statements writes_space hstop h
  refine ⟨ds, hds, ?_⟩
  rw [Statement.renderAll_eq, renderBlock]
  cases hds with
  | nil => exact hopen.then hclose
  | cons =>
    exact ((hopen.then writes_space).then hw).append (writes_space.then hclose) fun _ _ => hstop _

theorem writes_keyword {k : Kind} (hk : k ∈ Kind.keywords) :
    Writes Always k.spelling [(k, k.spelling)] :=
  (writes_lexeme ((lexeme_keyword_iff hk).2 rfl)).mono fun t _ => stops_keyword hk t

/-- A keyword and the space after it. -/
theorem writes_keyword_space {k : Kind} (hk : k ∈ Kind.keywords) :
    Writes Always (k.spelling ++ utf8 " ") [(k, k.spelling)] :=
  (writes_keyword hk).then writes_space

theorem exists_declaration {span : Span} {id : Identifier} {params : List Identifier} {t : Text}
    (hid : id.Plain) (hps : ∀ p ∈ params, p.Typed) (ht : IsName t) :
    ∃ d, (Statement.declaration span id params (some t)).WrittenAs d := by
  obtain ⟨_, n, _⟩ := id
  obtain ⟨hn, rfl⟩ := hid
  obtain ⟨ps, hpst, hpsw⟩ := exists_params hps
  refine ⟨.declaration (utf8 "declare") (utf8 "function") n ps ⟨utf8 ":", t⟩ (utf8 ";"), ?_,
    Nat.le_refl _, ?_⟩
  · exact congrArg (Statement.declaration ⟨0, 0⟩ _ · _) hpst
  · have hwords : Writes Always (utf8 "declare function ")
        [(.declare, utf8 "declare"), (.function, utf8 "function")] :=
      (writes_keyword_space (k := .declare) (by decide)).then
        (writes_keyword_space (k := .function) (by decide))
    have hhead := (hwords.then (writes_lexeme (k := .identifier) hn)).append hpsw
      fun _ _ => fresh_of_head rfl
    have htype := (hhead.then writes_colon).then (writes_lexeme (k := .identifier) ht)
    exact (htype.append writes_semicolon fun _ _ => fresh_of_head rfl).of_eq rfl
      (by simp [Stmt.leaves, TypeMark.leaves])

theorem exists_definition {span bodySpan : Span} {id : Identifier} {params : List Identifier}
    {returnType : Option Text} {body : List Statement} (hid : id.Plain)
    (hps : ∀ p ∈ params, p.Typed) (ht : ∀ t ∈ returnType, IsName t)
    (hbody : ∀ s ∈ body, ∃ d, s.WrittenAs d) :
    ∃ d, (Statement.definition span id params returnType bodySpan body).WrittenAs d := by
  obtain ⟨_, n, _⟩ := id
  obtain ⟨hn, rfl⟩ := hid
  obtain ⟨ps, hpst, hpsw⟩ := exists_params hps
  obtain ⟨ty, rfl, hty⟩ := exists_typeMark ht
  obtain ⟨ds, hds, hblock⟩ := exists_block hbody
  refine ⟨.definition (utf8 "function") n ps ty (utf8 "\x7b") ds (utf8 "\x7d"), ?_,
    Nat.succ_le_succ (nestingAll_le_of_forall₂ hds), ?_⟩
  · simp only [Stmt.map, Stmt.tree, Statement.eraseSpans, hpst, treeAll_eq_of_forall₂ hds,
      Option.map_map]
    rfl
  · have hword : Writes Always (utf8 "function ") [(.function, utf8 "function")] :=
      writes_keyword_space (k := .function) (by decide)
    have hhead := (hword.then (writes_lexeme (k := .identifier) hn)).append hpsw
      fun _ _ => fresh_of_head rfl
    have htype := (hhead.then hty).append writes_space fun _ _ => fresh_of_head rfl
    exact ((htype.then hblock).mono fun _ _ => trivial).of_eq (List.append_nil _)
      (by simp [Stmt.leaves])

theorem exists_constant {span : Span} {id : Identifier} {value : Expression} (hid : id.Typed)
    (hvalue : value.WellFormed) : ∃ d, (Statement.constant span id value).WrittenAs d := by
  obtain ⟨p, hp⟩ := hid.exists_written
  obtain ⟨e, he⟩ := hvalue.exists_written
  refine ⟨.constant (utf8 "const") p (utf8 "=") e (utf8 ";"), ?_, he.nesting, ?_⟩
  · exact congrArg₂ (Statement.constant ⟨0, 0⟩) hp.tree he.tree
  · have hword : Writes Always (utf8 "const ") [(.const, utf8 "const")] :=
      writes_keyword_space (k := .const) (by decide)
    have hassign : Writes Always (utf8 " = ") [(.assign, utf8 "=")] :=
      (writes_space.then (writes_fixed (k := .assign) rfl fun _ => rfl)).then writes_space
    have hhead := (hword.then hp.writes).append hassign fun _ _ => fresh_of_head rfl
    exact ((hhead.then he.writes).append writes_semicolon fun _ _ => fresh_of_head rfl).of_eq rfl
      (by simp [Stmt.leaves])

theorem exists_return {span : Span} {argument : Option Expression}
    (h : ∀ e ∈ argument, e.WellFormed) : ∃ d, (Statement.return span argument).WrittenAs d := by
  cases argument with
  | none =>
    refine ⟨.return (utf8 "return") none (utf8 ";"), rfl, Nat.le_refl _, ?_⟩
    exact (writes_keyword (k := .return) (by decide)).then writes_semicolon
  | some value =>
    obtain ⟨e, he⟩ := (h value rfl).exists_written
    refine ⟨.return (utf8 "return") (some e) (utf8 ";"), ?_, he.nesting, ?_⟩
    · exact congrArg (Statement.return ⟨0, 0⟩ <| some ·) he.tree
    · have hword : Writes Always (utf8 "return ") [(.return, utf8 "return")] :=
        writes_keyword_space (k := .return) (by decide)
      exact ((hword.then he.writes).append writes_semicolon fun _ _ => fresh_of_head rfl).of_eq rfl
        (by simp [Stmt.leaves])

theorem Statement.WellFormed.exists_written {s : Statement} (h : s.WellFormed) :
    ∃ d, s.WrittenAs d := by
  induction h with
  | declaration hid hps ht => exact exists_declaration hid hps ht
  | definition hid hps ht _ ih => exact exists_definition hid hps ht ih
  | constant hid hvalue => exact exists_constant hid hvalue
  | «return» h => exact exists_return h
  | expression h =>
    obtain ⟨e, he⟩ := h.exists_written
    refine ⟨.expression e (utf8 ";"), congrArg Statement.expression he.tree, he.nesting, ?_⟩
    exact he.writes.append writes_semicolon fun _ _ => fresh_of_head rfl

/-! ### Reading back -/

namespace Grammar

theorem Param.eraseSpan_tree (p : Param Token) :
    ((p.map Token.text).map bareToken).tree.eraseSpan = p.tree.eraseSpan := by
  obtain ⟨n, t⟩ := p
  cases t <;> rfl

theorem Params.eraseSpan_trees (ps : Params Token) :
    ((ps.map Token.text).map bareToken).trees.map Identifier.eraseSpan =
      ps.trees.map Identifier.eraseSpan := by
  obtain ⟨o, l, c⟩ := ps
  cases l with
  | none => rfl
  | some l =>
    simp [Params.map, Params.trees, Function.comp_def, Param.eraseSpan_tree]

mutual
/-- Without its spans, the tree of an expression depends on the spelling of the tokens only. -/
theorem Expr.eraseSpans_tree :
    ∀ e : Expr Token, ((e.map Token.text).map bareToken).tree.eraseSpans = e.tree.eraseSpans
  | .name _ => rfl
  | .number _ => rfl
  | .string _ => rfl
  | .call _ _ as _ => congrArg (Expression.call ⟨0, 0⟩ _) (Expr.eraseSpansAll_treeAll as)

theorem Expr.eraseSpansAll_treeAll : ∀ as : CommaList Token (Expr Token),
    Expression.eraseSpansAll (Expr.treeAll (Expr.mapAll bareToken (Expr.mapAll Token.text as))) =
      Expression.eraseSpansAll (Expr.treeAll as)
  | .one e => congrArg ([·]) e.eraseSpans_tree
  | .more e _ as => congrArg₂ List.cons e.eraseSpans_tree (Expr.eraseSpansAll_treeAll as)
end

mutual
/-- Without its spans, the tree of a statement depends on the spelling of the tokens only. -/
theorem Stmt.eraseSpans_tree :
    ∀ s : Stmt Token, ((s.map Token.text).map bareToken).tree.eraseSpans = s.tree.eraseSpans
  | .declaration _ _ _ ps _ _ => congrArg (Statement.declaration ⟨0, 0⟩ _ · _) ps.eraseSpan_trees
  | .definition _ _ ps t _ body _ => by
    simp only [Stmt.map, Stmt.tree, Statement.eraseSpans, ps.eraseSpan_trees,
      Stmt.eraseSpansAll_treeAll body, Option.map_map]
    rfl
  | .constant _ id _ e _ =>
    congrArg₂ (Statement.constant ⟨0, 0⟩) id.eraseSpan_tree e.eraseSpans_tree
  | .return _ none _ => rfl
  | .return _ (some e) _ => congrArg (Statement.return ⟨0, 0⟩ <| some ·) e.eraseSpans_tree
  | .expression e _ => congrArg Statement.expression e.eraseSpans_tree

theorem Stmt.eraseSpansAll_treeAll : ∀ body : List (Stmt Token),
    Statement.eraseSpansAll (Stmt.treeAll (Stmt.mapAll bareToken (Stmt.mapAll Token.text body))) =
      Statement.eraseSpansAll (Stmt.treeAll body)
  | [] => rfl
  | s :: body => congrArg₂ List.cons s.eraseSpans_tree (Stmt.eraseSpansAll_treeAll body)
end

end Grammar

/-- A well-formed program is spelled with the leaves of a derivation, and this has its tree. -/
theorem Program.WellFormed.exists_spelling {p : Program} (h : p.WellFormed) :
    ∃ ds, List.Forall₂ Statement.WrittenAs p.body ds ∧ Spells p.render (Stmt.leavesAll ds) := by
  have hsep : Writes Always [Text.lineFeed] [] := writes_layout (b := 10) (by decide) (by decide)
  have hstop (t : Text) : Stops .semicolon ([Text.lineFeed] ++ t) := by
    rintro _ ⟨⟩
    rfl
  obtain ⟨ds, hds, hw⟩ := exists_statements hsep hstop fun s hs => (h s hs).exists_written
  refine ⟨ds, hds, ?_⟩
  have := hw [] [] (by nofun) (.done (.none []))
  rwa [List.append_nil, List.append_nil] at this

/-- What is written for a well-formed program is parsed again, but for the spans. -/
theorem Program.WellFormed.exists_parse {p : Program} {maxDepth : Int} (h : p.WellFormed)
    (hn : p.nesting ≤ depthLimit maxDepth) :
    ∃ q, parse maxDepth p.render = .ok q ∧ q.eraseSpans = p.eraseSpans := by
  obtain ⟨ds, hds, hspells⟩ := h.exists_spelling
  obtain ⟨ts, o, hread, hts⟩ := hspells.readAll 0
  have hrun : tokenize p.render = ⟨ts, .complete o⟩ := by
    rw [tokenize, Cursor.start, hread]
  have hlabels : (ts.map fun t => (t.kind, t)).map (Prod.map id Token.text) =
      Stmt.leavesAll ds := by
    rw [← hts, List.map_map]
    rfl
  -- the derivation that was written, with the tokens that were read for its labels
  obtain ⟨d, hd, rfl⟩ := Stmt.exists_mapAll hlabels
  have hnd : Stmt.nestingAll d ≤ depthLimit maxDepth := by
    rw [← Stmt.nestingAll_mapAll Token.text d]
    exact Nat.le_trans (nestingAll_le_of_forall₂ hds) hn
  refine ⟨⟨⟨0, p.render.length⟩, Stmt.treeAll d⟩, parse_eq_ok_iff.2 ⟨⟨o, ?_⟩, d, ?_, hnd, rfl⟩, ?_⟩
  · rw [hrun]
  · rw [hrun, hd]
  · exact congrArg (Program.mk ⟨0, 0⟩)
      ((Stmt.eraseSpansAll_treeAll d).symm.trans (treeAll_eq_of_forall₂ hds))

/-- **Parsing undoes printing**: a well-formed program that is written as source text is parsed
again, within every limit that its nesting keeps to, and is the same but for its spans. -/
theorem parse_render (p : Program) (maxDepth : Int) (h : p.WellFormed)
    (hn : p.nesting ≤ depthLimit maxDepth) :
    ∃ q, parse maxDepth p.render = .ok q ∧ q.eraseSpans = p.eraseSpans :=
  h.exists_parse hn

/-- The program `function f(a: T) { return g(7, "it"); }`, with no spans. -/
def returnCall : Program :=
  ⟨⟨0, 0⟩, [.definition ⟨0, 0⟩ ⟨⟨0, 0⟩, utf8 "f", none⟩
    [⟨⟨0, 0⟩, utf8 "a", some (utf8 "T")⟩] none ⟨0, 0⟩
    [.return ⟨0, 0⟩ (some (.call ⟨0, 0⟩ ⟨⟨0, 0⟩, utf8 "g", none⟩
      [.number ⟨0, 0⟩ (Binary64.ofDigits (utf8 "7")) (utf8 "7"),
        .string ⟨0, 0⟩ (utf8 "it") (utf8 "\"it\"")]))]]⟩

theorem returnCall_wellFormed : returnCall.WellFormed := by
  have hname (b : UInt8) (hs : Rule.isNameStart b = true) (hp : Rule.isNamePart b = true)
      (hk : ∀ k ∈ Kind.keywords, ¬ k.spelling <+: [b]) : IsName [b] :=
    ⟨⟨b, [], rfl, hs⟩, by simpa using hp, hk⟩
  have ha : Identifier.Typed ⟨⟨0, 0⟩, utf8 "a", some (utf8 "T")⟩ :=
    ⟨hname 97 (by decide) (by decide) (by decide), by
      rintro _ ⟨⟩
      exact hname 84 (by decide) (by decide) (by decide)⟩
  have hseven : Expression.WellFormed (.number ⟨0, 0⟩ (Binary64.ofDigits (utf8 "7")) (utf8 "7")) :=
    .number ⟨by decide, List.forall_mem_singleton.2 rfl⟩
  have hit : Expression.WellFormed (.string ⟨0, 0⟩ (utf8 "it") (utf8 "\"it\"")) :=
    .string ⟨34, .inl rfl, by decide, rfl⟩
  have hg : Identifier.Plain ⟨⟨0, 0⟩, utf8 "g", none⟩ :=
    ⟨hname 103 (by decide) (by decide) (by decide), rfl⟩
  refine List.forall_mem_singleton.2
    (.definition ⟨hname 102 (by decide) (by decide) (by decide), rfl⟩
    (List.forall_mem_singleton.2 ha) nofun (List.forall_mem_singleton.2 (.return ?_)))
  rintro _ ⟨⟩
  exact .call hg (List.cons_ne_nil _ _)
    (List.forall_mem_cons.2 ⟨hseven, List.forall_mem_singleton.2 hit⟩)

theorem parse_render_returnCall : returnCall.WellFormed ∧ returnCall.nesting ≤ depthLimit 2 ∧
    ∃ q, parse 2 returnCall.render = .ok q ∧ q.eraseSpans = returnCall.eraseSpans :=
  ⟨returnCall_wellFormed, by decide, parse_render returnCall 2 returnCall_wellFormed (by decide)⟩

end Scriptlet
