import SchemaLint.Parse.File
import SchemaLint.Proofs.Edit.Splice
import SchemaLint.Proofs.Parse.Declaration
import SchemaLint.Proofs.Rename.Place

/-!
# A renamed file is read as such

The text of a file with other names in it is again the text of a file: of the same one, renamed.
-/

set_option autoImplicit false
set_option relaxedAutoImplicit false

namespace SchemaLint

open Piece (flat allRenamed)

namespace SchemaFile

/-- A file with the pieces and the last gap of the text that it was read from. -/
structure ReadFrom (filename : String) (text : List Char) (file : SchemaFile) (ps : List Piece)
    (trail : List Char) : Prop where
  tiles : Lexer.Tiles (Lexer.start filename text) (flat ps) trail
  unfolds : Unfolds ((Declaration.preorderAll file.body).filter Declaration.isNamed) ps
  again : ∀ r : Renaming, Parser.declarations (allRenamed r ps) = .ok (r.declarations file.body, [])
  whole : file = ⟨filename, file.body, .start filename, (Position.start filename).advance text⟩

theorem readFrom_of_parse {filename source : String} {file : SchemaFile}
    (h : parse filename source = .ok file) :
    ∃ ps trail, ReadFrom filename source.toList file ps trail := by
  unfold parse at h
  dsimp only at h
  split at h
  · simp at h
  · rename_i hfault
    have h := mapError_eq_ok_iff.1 h
    obtain ⟨⟨body, rest⟩, hbody, h⟩ := bind_eq_ok_iff.1 h
    have hfile : _ = file := Except.ok.inj h
    subst hfile
    obtain ⟨ps, hps, hunfolds, hagain⟩ := Parser.declarations_again hbody
    have hread : (Lexer.start filename source.toList).read = ⟨flat ps, none⟩ := by
      rw [← hps, ← hfault]
    obtain ⟨trail, htiles⟩ := Lexer.read_eq_iff.1 hread
    exact ⟨ps, trail, htiles, hunfolds, hagain, by rw [Position.advance_start]⟩

namespace ReadFrom

variable {filename : String} {text : List Char} {file : SchemaFile} {ps : List Piece}
  {trail : List Char} {r : Renaming}

theorem tiles_again (h : ReadFrom filename text file ps trail) (wordy : Piece.Rewordable r ps)
    (place : r.place = Change.shift (Change.between (flat ps) (allRenamed r ps))) :
    Lexer.Tiles (Lexer.start filename (Lexeme.spelled (allRenamed r ps) ++ trail))
        (allRenamed r ps) trail ∧
      r.place ((Position.start filename).advance text) =
        (Position.start filename).advance (Lexeme.spelled (allRenamed r ps) ++ trail) := by
  have hmoved := Piece.map_position_allRenamed r ps
  rw [place] at hmoved
  obtain ⟨hplaced, hend⟩ := (Change.Shifted.refl (.start filename)).placed h.tiles wordy.rewords
    (by rfl) hmoved
  exact ⟨h.tiles.reword wordy.rewords hplaced, by rw [place]; exact hend⟩

theorem parse_again (h : ReadFrom filename text file ps trail) (wordy : Piece.Rewordable r ps)
    (place : r.place = Change.shift (Change.between (flat ps) (allRenamed r ps))) :
    parse filename (String.ofList (Lexeme.spelled (allRenamed r ps) ++ trail)) =
      .ok (r.file file) := by
  obtain ⟨htiles, hend⟩ := h.tiles_again wordy place
  have hread := Lexer.read_eq_iff.2 ⟨trail, htiles⟩
  have hstart : r.place (.start filename) = .start filename := by
    rw [place, Change.shift_start]
  have hfile : r.file file = ⟨filename, r.declarations file.body, .start filename,
      (Position.start filename).advance (Lexeme.spelled (allRenamed r ps) ++ trail)⟩ := by
    rw [h.whole, Renaming.file, Renaming.span, hstart, hend]
  unfold parse
  simp only [String.toList_ofList, hread]
  refine mapError_eq_ok_iff.2 (bind_eq_ok_iff.2 ⟨_, h.again r, ?_⟩)
  rw [hfile, Position.advance_start]
  rfl

end ReadFrom

end SchemaFile

end SchemaLint
