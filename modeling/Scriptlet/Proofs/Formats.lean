import Scriptlet.Proofs.JsonIndent
import Scriptlet.Tree.Format

/-!
# Programs in the formats that there are

What is printed for a program in each format, said format by format (`Program.Printed`): its JSON
with one field to a line, an outline of its nodes, or its source text. Only JSON can fail, and only
for a program whose object goes too deep (`Program.Refused`). In a known format one of the two is
the case (`print_cases`), and which one it is settles what is printed (`print_of_printed`,
`print_of_refused`).
-/

namespace Scriptlet

/-- The names of the formats. -/
def Format.IsKnown (name : Text) : Prop :=
  name = utf8 "json" ∨ name = utf8 "spew" ∨ name = utf8 "text"

theorem Format.isKnown_of_isSome {name : Text} (h : (ofName? name).isSome = true) :
    IsKnown name := by
  rw [ofName?] at h
  split_ifs at h with hjson hspew htext
  · exact .inl hjson
  · exact .inr (.inl hspew)
  · exact .inr (.inr htext)
  · cases h

/-- What is printed for a program in the format with the given name. -/
inductive Program.Printed (p : Program) : (formatName content : Text) → Prop where
  /-- As JSON: a text with blanks, which without them is read as the object of the program. -/
  | json {v : JsonValue} : p.Shown v → v.nesting ≤ 10000 →
      JsonValue.read? (Json.condense (p.toJson.indented 0 ++ [Text.lineFeed])) = some v →
      Printed p (utf8 "json") (p.toJson.indented 0 ++ [Text.lineFeed])
  /-- As an outline. -/
  | outline : Printed p (utf8 "spew") (p.outline.render 0 ++ [Text.lineFeed])
  /-- As source text. -/
  | source : Printed p (utf8 "text") (p.render ++ [Text.lineFeed])

/-- The program is not printed as JSON, since its object goes too deep. The message names the nodes
on the way to the place where it does. -/
def Program.Refused (p : Program) (formatName message : Text) : Prop :=
  formatName = utf8 "json" ∧ (∃ v, p.Shown v ∧ 10000 < v.nesting) ∧
    ∃ way, message = (utf8 "Program" :: way).flatMap
      (fun type => utf8 "json: error calling MarshalJSON for type *ast." ++ type ++ utf8 ": ") ++
      utf8 "exceeded max depth"

theorem Unwritable.message_eq (u : Unwritable) :
    u.message = u.way.flatMap
      (fun type => utf8 "json: error calling MarshalJSON for type *ast." ++ type ++ utf8 ": ") ++
      u.fault.message := by
  obtain ⟨way, fault⟩ := u
  simp only [message]
  induction way with
  | nil => rfl
  | cons type way ih =>
    rw [List.foldr_cons, ih, List.flatMap_cons]
    exact (List.append_assoc _ _ _).symm

section

variable {p : Program} {name : Text} (h : p.WellFormed)

include h

theorem Program.WellFormed.exists_print (hname : Format.IsKnown name)
    (hflat : name = utf8 "json" → p.toJson.nesting ≤ Json.nestingLimit) :
    ∃ content, p.print name = .ok content ∧ p.Printed name content := by
  rcases hname with rfl | rfl | rfl
  · have hle := hflat rfl
    have hread : JsonValue.read? (Json.condense (p.toJson.indented 0 ++ [Text.lineFeed])) =
        some p.toJson.value := by
      rw [p.condense_print, Json.read?_compact]
    refine ⟨_, ?_, .json h.shown (by rwa [Json.nesting_value]) hread⟩
    rcases h.writable_cases with ⟨-, hwritable⟩ | ⟨hdeep, -⟩
    · rw [p.print_json, hwritable]
      rfl
    · exact absurd hle (Nat.not_le.2 hdeep)
  · exact ⟨_, rfl, .outline⟩
  · exact ⟨_, rfl, .source⟩

theorem Program.WellFormed.exists_refused (hdeep : Json.nestingLimit < p.toJson.nesting) :
    ∃ message, p.print (utf8 "json") = .error message ∧ p.Refused (utf8 "json") message := by
  rcases h.writable_cases with ⟨hle, -⟩ | ⟨-, way, hwritable⟩
  · exact absurd hle (Nat.not_le.2 hdeep)
  · refine ⟨_, by rw [p.print_json, hwritable]; rfl, rfl, ⟨_, h.shown, by rwa [Json.nesting_value]⟩,
      way, ?_⟩
    exact Unwritable.message_eq _

/-- **In a known format a program is printed**, unless its JSON goes too deep. -/
theorem Program.WellFormed.print_cases (hname : Format.IsKnown name) :
    (∃ content, p.print name = .ok content ∧ p.Printed name content) ∨
      ∃ message, p.print name = .error message ∧ p.Refused name message := by
  by_cases hflat : name = utf8 "json" → p.toJson.nesting ≤ Json.nestingLimit
  · exact .inl (h.exists_print hname hflat)
  · obtain ⟨rfl, hdeep⟩ := Classical.not_imp.1 hflat
    exact .inr (h.exists_refused (Nat.lt_of_not_le hdeep))

theorem Program.WellFormed.print_of_printed {content : Text} (hprinted : p.Printed name content) :
    p.print name = .ok content := by
  cases hprinted with
  | json hshown hle _ =>
    rcases h.writable_cases with ⟨-, hwritable⟩ | ⟨hdeep, -⟩
    · rw [p.print_json, hwritable]
      rfl
    · rw [← hshown.nesting] at hdeep
      exact absurd hle (Nat.not_le.2 hdeep)
  | outline => rfl
  | source => rfl

theorem Program.WellFormed.print_of_refused {message : Text} (hrefused : p.Refused name message) :
    ∃ said, p.print name = .error said := by
  obtain ⟨rfl, ⟨v, hshown, hdeep⟩, -⟩ := hrefused
  obtain ⟨said, hsaid, -⟩ := h.exists_refused (hshown.nesting ▸ hdeep)
  exact ⟨said, hsaid⟩

end

/-- Only a limit above 3331 lets a program in that goes too deep for JSON. -/
theorem Program.Refused.lt_depthLimit {maxDepth : Int} {src : Text} {p : Program}
    {name message : Text} (hrefused : p.Refused name message) (h : parse maxDepth src = .ok p) :
    3331 < depthLimit maxDepth := by
  obtain ⟨-, ⟨v, hshown, hdeep⟩, -⟩ := hrefused
  have hdepth := nesting_toJson_of_parse h
  rw [← hshown.nesting] at hdepth
  omega

/-- A program that was parsed with a limit up to 3331 is printed in every format. -/
theorem exists_print_of_parse {maxDepth : Int} {src : Text} {p : Program}
    (h : parse maxDepth src = .ok p) {name : Text} (hname : Format.IsKnown name)
    (hlimit : name = utf8 "json" → depthLimit maxDepth ≤ 3331) :
    ∃ content, p.print name = .ok content ∧ p.Printed name content := by
  refine (wellFormed_of_parse h).exists_print hname fun hjson => ?_
  have hdepth := nesting_toJson_of_parse h
  have := hlimit hjson
  rw [Json.nestingLimit]
  omega

end Scriptlet
