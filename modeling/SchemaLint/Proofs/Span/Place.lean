import SchemaLint.Proofs.Layout.File
import SchemaLint.Proofs.Span.Nested

/-!
# Positions are true

A position counts the same place three times over.  Whatever reading a file hands out, the spans of
its nodes or the place of its fault, the three counts are those of the text before that place.
-/

set_option autoImplicit false
set_option relaxedAutoImplicit false

namespace SchemaLint

open Lexeme (Tiling spelled)

/-- Whether a position names a place of a text: its offset lies between two characters, and line and
column are counted anew from the characters before it. -/
structure Position.IsTrue (filename source : String) (p : Position) : Prop where
  filename_eq : p.filename = filename
  boundary : (⟨p.offset⟩ : String.Pos.Raw).IsValid source
  le_length : p.offset ≤ source.utf8ByteSize
  line_eq : p.line = 1 + (Text.takeBytes source.toList p.offset).count '\n'
  column_eq : p.column =
    1 + ((Text.takeBytes source.toList p.offset).reverse.takeWhile (· ≠ '\n')).length

variable {filename source : String}

theorem Position.isTrue_behind {front rest : List Char} (h : source.toList = front ++ rest) :
    (behind filename front).IsTrue filename source := by
  have hsource : source = String.ofList front ++ String.ofList rest := by
    apply String.toList_injective
    simp [h]
  have hfront : Text.takeBytes source.toList (behind filename front).offset = front := by
    rw [h]
    exact Text.takeBytes_append front rest
  have hboundary : (⟨(behind filename front).offset⟩ : String.Pos.Raw).IsValid source := by
    refine String.Pos.Raw.isValid_iff_exists_append.2 ⟨_, _, hsource, String.Pos.Raw.ext ?_⟩
    exact (Text.utf8ByteSize_ofList front).symm
  refine ⟨rfl, hboundary, ?_, by rw [hfront]; rfl, by rw [hfront]; rfl⟩
  exact hboundary.le_rawEndPos

theorem Position.isTrue_advance {front rest : List Char} (h : source.toList = front ++ rest) :
    ((start filename).advance front).IsTrue filename source := by
  rw [advance_start]
  exact isTrue_behind h

theorem Lexeme.Tiling.isTrue {ls : List Lexeme} {after : List Char}
    (h : Tiling filename source.toList ls after) {l : Lexeme} (hl : l ∈ ls) :
    l.token.position.IsTrue filename source := by
  obtain ⟨as, bs, rfl⟩ := List.append_of_mem hl
  have hwhole : source.toList = spelled as ++ l.gap ++ (l.token.text.toList ++
      (spelled bs ++ after)) := by
    simp [h.whole, Lexeme.chars]
  rw [h.position as l bs rfl]
  exact Position.isTrue_behind hwhole

namespace SchemaFile

theorem isTrue_ending : (Position.behind filename source.toList).IsTrue filename source :=
  Position.isTrue_behind (List.append_nil _).symm

theorem isTrue_span {file : SchemaFile} (read : parse filename source = .ok file) :
    ∀ n ∈ file.nodes,
      n.span.first.IsTrue filename source ∧ n.span.last.IsTrue filename source := by
  obtain ⟨ls, hread, hstands, hspan⟩ := exists_stands read
  obtain ⟨after, tiling⟩ := Lexer.exists_tiling hread
  intro n hn
  rcases List.mem_cons.1 hn with rfl | hn
  · have hstart : (Position.start filename).IsTrue filename source :=
      Position.isTrue_advance (List.nil_append _).symm
    simp only [Node.span, hspan]
    exact ⟨hstart, isTrue_ending⟩
  · obtain ⟨d, hd, rfl⟩ := List.mem_map.1 hn
    obtain ⟨before, first, inner, last, after, rfl, hrun, -⟩ := hstands.exists_run d hd
    simp only [Node.span, hrun.begins, hrun.ends]
    exact ⟨tiling.isTrue (by simp), tiling.isTrue (by simp)⟩

theorem isTrue_fault {e : ParseError} (failed : parse filename source = .error e) :
    e.position.IsTrue filename source := by
  rcases hread : (Lexer.start filename source.toList).read with ⟨ls, fault⟩
  obtain ⟨rest, hwhole, hfits, hplaced, hends⟩ := Lexer.read_eq_iff_fits.1 hread
  cases fault with
  | some lexical =>
    obtain ⟨gap, bad, rfl, -, -, hposition⟩ := hends
    obtain rfl : ParseError.ofLexError lexical = e := by simpa [parse, hread] using failed
    have hplace : lexical.position = (Position.start filename).advance (spelled ls ++ gap) := by
      rw [Position.advance_append]
      exact hposition
    rw [ParseError.ofLexError, hplace]
    exact Position.isTrue_advance (hwhole.trans (List.append_assoc _ _ _).symm)
  | none =>
    have tiling : Tiling filename source.toList ls rest :=
      Lexeme.tiling_iff.2 ⟨hwhole, hfits, hplaced⟩
    rw [parse_of_read hread] at failed
    simp only [ofLexemes, Bind.bind, Except.bind] at failed
    cases hbody : Parser.declarations ls with
    | ok x =>
      rw [hbody] at failed
      cases failed
    | error fault =>
      rw [hbody] at failed
      obtain rfl := Except.error.inj failed
      rcases Parser.parallel_declarations.at_token hfits hbody with rfl | ⟨what, l, hl, rfl⟩
      · exact isTrue_ending
      · exact tiling.isTrue hl

/-- Every position of a tree is true, those of the file itself included, and so is the position of a
fault, whether of the text or of its tokens, or where the text ends too early. -/
theorem parse_isTrue (filename source : String) :
    (∀ file, parse filename source = .ok file → ∀ n ∈ file.nodes,
      n.span.first.IsTrue filename source ∧ n.span.last.IsTrue filename source) ∧
    ∀ e, parse filename source = .error e → e.position.IsTrue filename source :=
  ⟨fun _ => isTrue_span, fun _ => isTrue_fault⟩

/-- Behind an accented letter bytes and characters are told apart, in a tree and in faults of all
three sorts: no token, a token that is not expected, and the end of the text. -/
theorem parse_isTrue_accented :
    (∃ file, parse "a.proto" "// é\r\nenum E \x7b\x7d" = .ok file ∧ file.nodes.length = 2 ∧
      ∀ n ∈ file.nodes, n.span.first.IsTrue "a.proto" "// é\r\nenum E \x7b\x7d" ∧
        n.span.last.IsTrue "a.proto" "// é\r\nenum E \x7b\x7d") ∧
    ∀ x ∈ [("/*é*/ $", 7, 1, 7), ("/*é*/ E", 7, 1, 7), ("enum\n/*é*/", 11, 2, 6)],
      ∃ e, parse "a.proto" x.1 = .error e ∧ e.position = ⟨"a.proto", x.2.1, x.2.2.1, x.2.2.2⟩ ∧
        e.position.IsTrue "a.proto" x.1 := by
  constructor
  · have hnodes : (parse "a.proto" "// é\r\nenum E \x7b\x7d").toOption.map (·.nodes.length) =
        some 2 := by
      decide +kernel
    obtain ⟨file, hfile, hlength⟩ := Option.map_eq_some_iff.1 hnodes
    have read := eq_ok_of_toOption hfile
    exact ⟨file, read, hlength, (parse_isTrue _ _).1 file read⟩
  · have hfaults : ∀ x ∈ [("/*é*/ $", 7, 1, 7), ("/*é*/ E", 7, 1, 7), ("enum\n/*é*/", 11, 2, 6)],
        (match parse "a.proto" x.1 with
          | .ok _ => none
          | .error e => some e.position) = some ⟨"a.proto", x.2.1, x.2.2.1, x.2.2.2⟩ := by
      decide +kernel
    intro x hx
    have hfault := hfaults x hx
    cases hparse : parse "a.proto" x.1 with
    | ok file => simp [hparse] at hfault
    | error e => exact ⟨e, rfl, by simpa [hparse] using hfault, (parse_isTrue _ _).2 e hparse⟩

end SchemaFile

end SchemaLint
