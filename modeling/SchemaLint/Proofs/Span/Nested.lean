import SchemaLint.Proofs.Span.Row
import SchemaLint.Proofs.Token.Exact

/-!
# Spans are nested and ordered

The lexemes of a file come one behind the other, so the spans of declarations lie as their runs do.
The nodes of a file are listed in the order in which they begin.
-/

set_option autoImplicit false
set_option relaxedAutoImplicit false

namespace SchemaLint

open Grammar (Run Stands)

def Node.parts : Node → List Declaration
  | .file f => f.body
  | .declaration d => d.parts

/-- Whether a node is the file itself or stands at some depth below it. -/
inductive SchemaFile.Has (f : SchemaFile) : Node → Prop
  | file : f.Has (.file f)
  | part {n : Node} {d : Declaration} (holder : f.Has n) (part : d ∈ n.parts) :
      f.Has (.declaration d)

/-- A declaration whose span reaches from its first lexeme to its closing one, while the spans of its
parts lie strictly between these, one behind the other. -/
structure Declaration.Nested (ls : List Lexeme) (d : Declaration) : Prop where
  run : ∃ before first inner last after,
    ls = before ++ first :: (inner ++ last :: after) ∧ Run d first inner last
  wide : d.span.first.offset < d.span.last.offset
  inside : ∀ e ∈ d.parts,
    d.span.first.offset < e.span.first.offset ∧ e.span.last.offset < d.span.last.offset
  apart : d.parts.Pairwise fun e e' => e.span.last.offset < e'.span.first.offset

/-- A file whose spans are nested and ordered at every depth, and whose nodes are listed in that order,
each of them once. -/
structure SchemaFile.Nested (ls : List Lexeme) (f : SchemaFile) : Prop where
  declaration : ∀ d, f.Has (.declaration d) → d.Nested ls
  inside : ∀ d ∈ f.body,
    f.span.first.offset ≤ d.span.first.offset ∧ d.span.last.offset < f.span.last.offset
  apart : f.body.Pairwise fun d e => d.span.last.offset < e.span.first.offset
  rising : f.nodes.tail.Pairwise fun n m => n.span.first.offset < m.span.first.offset
  listed : ∀ n, n ∈ f.nodes ↔ f.Has n
  once : f.nodes.Nodup

/-! ### Every node is listed -/

theorem Declaration.mem_preorderAll {d : Declaration} {ds : List Declaration} (h : d ∈ ds) :
    d ∈ preorderAll ds := by
  induction ds with
  | nil => simp at h
  | cons e ds ih =>
    rw [preorderAll_cons]
    rcases List.mem_cons.1 h with rfl | h
    · simp
    · simp [ih h]

theorem Declaration.preorderAll_parts (ds : List Declaration) :
    ∀ d ∈ preorderAll ds, ∀ e ∈ d.parts, e ∈ preorderAll ds := by
  induction ds using forest_induction with
  | nil => simp [preorderAll]
  | cons d ds inside others =>
    intro c hc e he
    simp only [preorderAll_cons, List.mem_cons, List.mem_append] at hc ⊢
    rcases hc with rfl | hc | hc
    · exact .inr (.inl (mem_preorderAll he))
    · exact .inr (.inl (inside c hc e he))
    · exact .inr (.inr (others c hc e he))

theorem SchemaFile.Has.preorderAll {f : SchemaFile} {ds : List Declaration}
    (h : ∀ d ∈ ds, f.Has (.declaration d)) :
    ∀ d ∈ Declaration.preorderAll ds, f.Has (.declaration d) := by
  induction ds using Declaration.forest_induction with
  | nil => simp [Declaration.preorderAll]
  | cons d ds inside others =>
    have hd := h d (by simp)
    intro e he
    simp only [Declaration.preorderAll_cons, List.mem_cons, List.mem_append] at he
    rcases he with rfl | he | he
    · exact hd
    · exact inside (fun c hc => .part hd hc) e he
    · exact others (fun c hc => h c (by simp [hc])) e he

theorem SchemaFile.mem_nodes_iff {f : SchemaFile} {n : Node} : n ∈ f.nodes ↔ f.Has n := by
  constructor
  · intro h
    rcases List.mem_cons.1 h with rfl | h
    · exact .file
    · obtain ⟨d, hd, rfl⟩ := List.mem_map.1 h
      exact Has.preorderAll (fun e he => .part .file he) d hd
  · intro h
    induction h with
    | file => exact List.mem_cons_self
    | @part n d holder part ih =>
      refine List.mem_cons_of_mem _ (List.mem_map_of_mem ?_)
      rcases List.mem_cons.1 ih with rfl | hn
      · exact Declaration.mem_preorderAll part
      · obtain ⟨e, he, rfl⟩ := List.mem_map.1 hn
        exact Declaration.preorderAll_parts _ e he d part

/-! ### Spans lie as runs do -/

def Lexeme.Precedes (l m : Lexeme) : Prop :=
  l.token.position.offset < m.token.position.offset

theorem Lexer.exists_tiling {filename : String} {text : List Char} {ls : List Lexeme}
    {fault : Option LexError} (h : (Lexer.start filename text).read = ⟨ls, fault⟩) :
    ∃ after, Lexeme.Tiling filename text ls after := by
  obtain ⟨after, hwhole, hfits, hplaced, -⟩ := Lexer.read_eq_iff_fits.1 h
  exact ⟨after, Lexeme.tiling_iff.2 ⟨hwhole, hfits, hplaced⟩⟩

theorem Lexeme.Tiling.precedes {filename : String} {text after : List Char} {ls : List Lexeme}
    (h : Lexeme.Tiling filename text ls after) : ls.Pairwise Lexeme.Precedes := by
  refine h.order.imp_of_mem fun hl _ hle => ?_
  exact Nat.lt_of_lt_of_le (h.slice _ hl).1 hle

theorem Lexeme.Tiling.offset_lt {filename source : String} {after : List Char} {ls : List Lexeme}
    (h : Lexeme.Tiling filename source.toList ls after) {l : Lexeme} (hl : l ∈ ls) :
    l.token.position.offset < source.utf8ByteSize := by
  obtain ⟨as, bs, rfl⟩ := List.append_of_mem hl
  have hwidth := (h.slice l hl).1
  have hoffset := congrArg Position.offset (h.position as l bs rfl)
  have htext := congrArg Text.byteLength h.whole
  rw [← Text.utf8ByteSize_ofList, String.ofList_toList] at htext
  simp only [spelled_append, spelled_cons, chars, Text.byteLength_append,
    Token.byteLength_text, Position.behind] at htext hoffset
  rw [Token.stop] at hwidth
  omega

namespace Grammar

variable {ls : List Lexeme} {d : Declaration} {ds : List Declaration}

theorem Stands.exists_run (h : Stands ls ds) : ∀ d ∈ Declaration.preorderAll ds,
    ∃ before first inner last after, ls = before ++ first :: (inner ++ last :: after) ∧
      Run d first inner last ∧ Stands inner d.parts := by
  induction h with
  | nil => simp [Declaration.preorderAll]
  | @cons before inner after first last d ds run inside others below behind =>
    intro e he
    simp only [Declaration.preorderAll_cons, List.mem_cons, List.mem_append] at he
    rcases he with rfl | he | he
    · exact ⟨before, first, inner, last, after, rfl, run, inside⟩
    · obtain ⟨before', first', inner', last', after', rfl, hrun, hinside⟩ := below e he
      exact ⟨before ++ first :: before', first', inner', last', after' ++ last :: after, by simp,
        hrun, hinside⟩
    · obtain ⟨before', first', inner', last', after', rfl, hrun, hinside⟩ := behind e he
      exact ⟨before ++ first :: (inner ++ last :: before'), first', inner', last', after', by simp,
        hrun, hinside⟩

theorem Stands.exists_mem (h : Stands ls ds) (hd : d ∈ ds) :
    (∃ l ∈ ls, d.span.first = l.token.position) ∧ ∃ l ∈ ls, d.span.last = l.token.position := by
  obtain ⟨before, first, inner, last, after, rfl, hrun, -⟩ :=
    h.exists_run d (Declaration.mem_preorderAll hd)
  exact ⟨⟨first, by simp, hrun.begins⟩, ⟨last, by simp, hrun.ends⟩⟩

theorem Stands.sublist (h : Stands ls ds) :
    ((Declaration.preorderAll ds).map (·.span.first)).Sublist (ls.map (·.token.position)) := by
  induction h with
  | nil => exact List.nil_sublist _
  | @cons before inner after first last d ds run inside others below behind =>
    simp only [Declaration.preorderAll_cons, List.map_cons, List.map_append, run.begins]
    exact ((below.append (behind.trans (List.sublist_cons_self _ _))).cons_cons _).trans
      (List.sublist_append_right _ _)

theorem Stands.starts (h : Stands ls ds) (rising : ls.Pairwise Lexeme.Precedes) :
    (Declaration.preorderAll ds).Pairwise fun d e => d.span.first.offset < e.span.first.offset := by
  have hplaces : (ls.map (·.token.position)).Pairwise fun p q => p.offset < q.offset :=
    List.pairwise_map.2 rising
  have hfirsts := hplaces.sublist h.sublist
  rwa [List.pairwise_map] at hfirsts

theorem Stands.apart (h : Stands ls ds) (rising : ls.Pairwise Lexeme.Precedes) :
    ds.Pairwise fun d e => d.span.last.offset < e.span.first.offset := by
  induction h with
  | nil => exact .nil
  | @cons before inner after first last d ds run inside others _ behind =>
    obtain ⟨-, hrow, -⟩ := List.pairwise_append.1 rising
    obtain ⟨-, hrow⟩ := List.pairwise_cons.1 hrow
    obtain ⟨-, hrow, -⟩ := List.pairwise_append.1 hrow
    obtain ⟨hlast, hafter⟩ := List.pairwise_cons.1 hrow
    refine .cons (fun e he => ?_) (behind hafter)
    obtain ⟨⟨l, hl, hfirst⟩, -⟩ := others.exists_mem he
    rw [run.ends, hfirst]
    exact hlast l hl

theorem Stands.nested (h : Stands ls ds) (rising : ls.Pairwise Lexeme.Precedes) :
    ∀ d ∈ Declaration.preorderAll ds, d.Nested ls := by
  intro d hd
  obtain ⟨before, first, inner, last, after, rfl, hrun, hinside⟩ := h.exists_run d hd
  obtain ⟨-, hrow, -⟩ := List.pairwise_append.1 rising
  obtain ⟨hfirst, hrow⟩ := List.pairwise_cons.1 hrow
  obtain ⟨hinner, -, hlast⟩ := List.pairwise_append.1 hrow
  refine ⟨⟨before, first, inner, last, after, rfl, hrun⟩, ?_, fun e he => ?_,
    hinside.apart hinner⟩
  · rw [hrun.begins, hrun.ends]
    exact hfirst last (by simp)
  · obtain ⟨⟨l, hl, hbegins⟩, m, hm, hends⟩ := hinside.exists_mem he
    rw [hrun.begins, hrun.ends, hbegins, hends]
    exact ⟨hfirst l (by simp [hl]), hlast m hm last (by simp)⟩

end Grammar

/-- Every node of a file that was read reaches from its first token to a semicolon or brace, with its
parts strictly inside it and one behind the other; the file reaches over the whole text.  So the nodes
are listed by where they begin, and each is listed once. -/
theorem SchemaFile.nested_of_parse {filename source : String} {file : SchemaFile}
    (read : SchemaFile.parse filename source = .ok file) :
    ∃ ls, (Lexer.start filename source.toList).read = ⟨ls, none⟩ ∧ file.Nested ls ∧
      file.span.first.offset = 0 ∧ file.span.last.offset = source.utf8ByteSize := by
  obtain ⟨ls, hread, hstands, hspan⟩ := exists_stands read
  obtain ⟨after, tiling⟩ := Lexer.exists_tiling hread
  have rising := tiling.precedes
  have hlength : file.span.last.offset = source.utf8ByteSize := by
    have hbytes := Text.utf8ByteSize_ofList source.toList
    rw [String.ofList_toList] at hbytes
    rw [hspan, hbytes]
    rfl
  have hstarts : (Declaration.preorderAll file.body).Pairwise
      fun d e => d.span.first.offset < e.span.first.offset := by
    have hplaces : (ls.map (·.token.position)).Pairwise fun p q => p.offset < q.offset :=
      List.pairwise_map.2 rising
    have hfirsts := hplaces.sublist hstands.sublist
    rwa [List.pairwise_map] at hfirsts
  refine ⟨ls, hread, ⟨?_, ?_, hstands.apart rising, ?_, fun n => mem_nodes_iff, ?_⟩, ?_, hlength⟩
  · intro d hd
    rcases List.mem_cons.1 (mem_nodes_iff.2 hd) with he | hd
    · cases he
    · obtain ⟨e, he, hsame⟩ := List.mem_map.1 hd
      obtain rfl := Node.declaration.inj hsame
      exact hstands.nested rising e he
  · intro d hd
    obtain ⟨-, l, hl, hlast⟩ := hstands.exists_mem hd
    rw [hlength, hlast]
    exact ⟨by simp [hspan, Position.start], tiling.offset_lt hl⟩
  · exact List.pairwise_map.2 hstarts
  · refine List.nodup_cons.2 ⟨by simp, ?_⟩
    refine List.Pairwise.map _ (fun d e hlt he => ?_) hstarts
    obtain rfl := Node.declaration.inj he
    exact Nat.lt_irrefl _ hlt
  · rw [hspan]
    rfl

/-- An option in a call in a service, behind two lone semicolons. -/
theorem SchemaFile.nested_of_parse_service :
    let source := ";;service S \x7b rpc A (B) returns (C) \x7b option o = 1; \x7d \x7d"
    ∃ file, SchemaFile.parse "a.proto" source = .ok file ∧ file.nodes.length = 4 ∧
      ∃ ls, (Lexer.start "a.proto" source.toList).read = ⟨ls, none⟩ ∧ file.Nested ls ∧
        file.span.first.offset = 0 ∧ file.span.last.offset = source.utf8ByteSize := by
  intro source
  have hnodes : (SchemaFile.parse "a.proto" source).toOption.map (·.nodes.length) = some 4 := by
    decide +kernel
  obtain ⟨file, hfile, hlength⟩ := Option.map_eq_some_iff.1 hnodes
  have read := eq_ok_of_toOption hfile
  exact ⟨file, read, hlength, nested_of_parse read⟩

end SchemaLint
