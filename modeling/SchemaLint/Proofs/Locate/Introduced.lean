import SchemaLint.Proofs.Locate.Dotted
import SchemaLint.Proofs.Parse.Piece

/-!
# Searches that set in at a declaration

The name that a declaration introduces is found by a search from the declaration's first token on,
when it is told what sort of declaration it is in.
-/

set_option autoImplicit false
set_option relaxedAutoImplicit false

namespace SchemaLint

/-- Where a declaration has its name, if that is one identifier: behind its keyword, before the equals
sign of a field, or at the start of an enum value. -/
def Declaration.namePlace? (d : Declaration) : Option NamePlace :=
  match d.keyword?, d.kind with
  | some word, _ => some (.afterKeyword word)
  | none, .field | none, .mapField => some .beforeAssign
  | none, .enumValue => some .leading
  | none, _ => none

variable {d : Declaration} {place : NamePlace} {lead before run after : List Lexeme}

theorem Declaration.namePlace?_of_keyword? {word : String} (h : d.keyword? = some word) :
    d.namePlace? = some (.afterKeyword word) := by
  unfold namePlace?
  rw [h]

theorem Declaration.namePlace?_of_field (h : d.kind = .field ∨ d.kind = .mapField) :
    d.namePlace? = some .beforeAssign := by
  have hkeyword : d.keyword? = none := by
    cases d with
    | block kind => cases kind <;> simp [kind, BlockKind.nodeKind] at h
    | rpc => simp [kind] at h
    | _ => rfl
  unfold namePlace?
  rw [hkeyword]
  rcases h with h | h <;> rw [h]

theorem Introduces.between (h : Introduces d before run after) (placed : d.namePlace? = some place) :
    ∃ l, run = [l] ∧ place.Between before after := by
  cases h with
  | package => cases placed
  | @keyword _ word k l _ known keyword =>
    rw [Declaration.namePlace?_of_keyword? known] at placed
    obtain rfl := Option.some.inj placed
    exact ⟨l, rfl, .afterKeyword keyword⟩
  | @assigned _ b l assign before after field goes_on type assigns =>
    rw [Declaration.namePlace?_of_field field] at placed
    obtain rfl := Option.some.inj placed
    exact ⟨l, rfl, .beforeAssign goes_on assigns⟩
  | @leading v l _ =>
    obtain rfl : NamePlace.leading = place := Option.some.inj placed
    exact ⟨l, rfl, .leading⟩

namespace Introduced

variable {s : SourceText} {trail : List Char}

theorem first_eq (h : Introduced d before run after) :
    ∃ l tail, before ++ run = l :: tail ∧ l.token.position = d.span.first := by
  have hfirst := h.first
  cases hsplit : before ++ run with
  | nil => simp [hsplit] at hfirst
  | cons l tail => exact ⟨l, tail, rfl, by simpa [hsplit] using hfirst⟩

theorem locateName_eq_ok (h : Introduced d before run after)
    (tiles : Lexer.Tiles (Lexer.start s.filename s.text) (lead ++ (before ++ run ++ after)) trail)
    (placed : d.namePlace? = some place) :
    ∃ l, run = [l] ∧ l.token.kind = .identifier ∧ d.name? = some l.token.text ∧
      s.locateName d.span.first l.token.text place = .ok l.token.range := by
  obtain ⟨l, rfl, hbetween⟩ := h.place.between placed
  obtain ⟨names, hspells, hname⟩ := h.spells
  obtain ⟨hword, hnamed⟩ : l.token.kind = .identifier ∧ d.name? = some l.token.text := by
    cases hspells with
    | last word => exact ⟨word, by simpa using hname⟩
  refine ⟨l, rfl, hword, hnamed, ?_⟩
  refine SourceText.locateName_eq_ok (by simpa using tiles) h.first hbetween ?_
  simp [Token.isWord, hword]

theorem locateDotted_eq_ok {p : Package} (h : Introduced (.package p) before run after)
    (tiles : Lexer.Tiles (Lexer.start s.filename s.text) (lead ++ (before ++ run ++ after)) trail) :
    s.locateDotted p.span.first "package" p.name = .ok (.ofRun run) := by
  obtain ⟨names, hspells, hname⟩ := h.spells
  have hname : p.name = ".".intercalate names := Option.some.inj hname
  obtain ⟨l, tail, hsplit, hfirst⟩ := h.first_eq
  cases h.place with
  | keyword known => simp [Declaration.keyword?] at known
  | assigned field => simp [Declaration.kind] at field
  | @package _ k semi _ after keyword ends =>
    obtain ⟨rfl, -⟩ : k = l ∧ run = tail := by simpa using hsplit
    have hspan : (Declaration.package p).span.first = p.span.first := rfl
    have htiles : Lexer.Tiles (Lexer.start s.filename s.text)
        (lead ++ (k :: run ++ semi :: after)) trail := by simpa using tiles
    have hlocated := SourceText.locateDotted_eq_ok htiles keyword hspells ends
    rwa [hfirst, hspan, ← hname] at hlocated

end Introduced

end SchemaLint
