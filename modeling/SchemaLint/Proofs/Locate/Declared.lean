import SchemaLint.Proofs.Linter.Proposals
import SchemaLint.Proofs.Locate.Anywhere
import SchemaLint.Proofs.Span.Nested

/-!
# The parser and the search agree on names

The parser takes the name of a declaration from certain tokens of the file.  A search from the
declaration's first place finds just these, between the two ends of the declaration.  Names stand one
behind the other, as their declarations begin.
-/

set_option autoImplicit false
set_option relaxedAutoImplicit false

namespace SchemaLint

open Piece (flat allRenamed)
open Grammar (Run Stands)

/-- Whether some bytes lie in a span, before the token that closes it. -/
structure Span.Encloses (span : Span) (range : ByteRange) : Prop where
  start_le : span.first.offset ≤ range.start
  le_stop : range.stop ≤ span.last.offset

/-- The bytes that a search gives for the name of a declaration. -/
inductive SourceText.Finds (s : SourceText) : Declaration → ByteRange → Prop
  | word {d : Declaration} {place : NamePlace} {name : String} {range : ByteRange}
      (placed : d.namePlace? = some place) (named : d.name? = some name)
      (found : s.locateName d.span.first name place = .ok range) : Finds s d range
  | dotted {p : Package} {name : DottedName}
      (found : s.locateDotted p.span.first "package" p.name = .ok name) :
      Finds s (.package p) name.range

/-- Whether a search finds the name of one declaration before that of another. -/
def SourceText.Apart (s : SourceText) (d e : Declaration) : Prop :=
  ∀ range range', s.Finds d range → s.Finds e range' → range.stop ≤ range'.start

/-! ### One name changed -/

/-- The renaming that gives one declaration another name and leaves all else alone.  An enum value
cannot be called by a word that begins another statement. -/
def Renaming.only (d : Declaration) (word : String) (placed : d.namePlace?.isSome = true)
    (clear : d.kind = .enumValue → word ≠ "option" ∧ word ≠ "reserved") : Renaming where
  place := id
  rewrite e name := if e.kind = d.kind ∧ e.span.first = d.span.first then word else name
  extended name body span := by
    refine if_neg fun h => ?_
    cases d with
    | block kind => cases kind <;> simp [Declaration.namePlace?, Declaration.keyword?,
        Declaration.kind, BlockKind.nodeKind] at placed h
    | _ => simp [Declaration.kind, BlockKind.nodeKind] at h
  dotted package parts := by
    have hkind : (Declaration.package package).kind ≠ d.kind := by
      intro h
      cases d with
      | block kind => cases kind <;> simp [Declaration.kind, BlockKind.nodeKind] at h
      | package => simp [Declaration.namePlace?, Declaration.keyword?, Declaration.kind] at placed
      | _ => simp [Declaration.kind] at h
    simp [hkind]
  valued value other reserves differs := by
    split
    · rename_i h
      obtain ⟨hoption, hreserved⟩ := clear h.1.symm
      rcases reserves with rfl | rfl
      · exact hoption
      · exact hreserved
    · exact differs

/-- Whether the parser takes the name of a declaration from a lexeme: whatever other word stands in
its place becomes the name of the declaration, and the file is the same otherwise. -/
structure SchemaFile.TakesName (file : SchemaFile) (ls : List Lexeme) (d : Declaration)
    (l : Lexeme) : Prop where
  word : l.token.kind = .identifier
  named : d.name? = some l.token.text
  again : ∃ before after, ls = before ++ l :: after ∧ ∀ word placed clear,
    Parser.declarations (before ++ l.reword (fun _ => word) :: after) =
      .ok ((Renaming.only d word placed clear).declarations file.body, [])

namespace Piece

theorem allRenamed_of_kept {r : Renaming} {ps : List Piece} (stays : r.place = id)
    (kept : ∀ d run, .name d run ∈ ps → ∀ t, r.rewrite d t = t) : allRenamed r ps = flat ps := by
  have hmove : ∀ l : Lexeme, l.move r.place = l := by
    intro l
    rw [stays]
    rfl
  induction ps with
  | nil => rfl
  | cons p ps ih =>
    have hothers := ih fun d run hmem => kept d run (List.mem_cons_of_mem _ hmem)
    cases p with
    | plain l => rw [allRenamed_plain, flat_plain, hothers, hmove]
    | name d run =>
      have hrun : run.map (fun l => (l.reword (r.rewrite d)).move r.place) = run := by
        simp only [hmove]
        exact Lexeme.map_reword_of_kept (kept d run List.mem_cons_self) run
      rw [allRenamed_name, flat_name, hothers, hrun]

def names (ps : List Piece) : List (Declaration × List Lexeme) :=
  ps.filterMap fun
    | .plain _ => none
    | .name d run => some (d, run)

theorem mem_names {ps : List Piece} {d : Declaration} {run : List Lexeme} :
    (d, run) ∈ names ps ↔ .name d run ∈ ps := by
  unfold names
  rw [List.mem_filterMap]
  constructor
  · rintro ⟨p, hp, h⟩
    cases p with
    | plain l => cases h
    | name e run' =>
      obtain ⟨rfl, rfl⟩ := Prod.mk.inj (Option.some.inj h)
      exact hp
  · exact fun h => ⟨_, h, rfl⟩

theorem map_fst_names (ps : List Piece) : (names ps).map Prod.fst = ps.filterMap owner? := by
  unfold names
  rw [List.map_filterMap]
  congr 1
  funext p
  cases p <;> rfl

theorem pairwise_names {ps : List Piece} (nonempty : ∀ d run, .name d run ∈ ps → run ≠ [])
    (order : (flat ps).Pairwise fun l m => l.token.stop ≤ m.token.position.offset) :
    (names ps).Pairwise fun a b => (Lexeme.extent a.2).stop ≤ (Lexeme.extent b.2).start := by
  induction ps with
  | nil => exact .nil
  | cons p ps ih =>
    have hothers := ih fun d run hmem => nonempty d run (List.mem_cons_of_mem _ hmem)
    cases p with
    | plain l => exact hothers (List.pairwise_cons.1 order).2
    | name d run =>
      obtain ⟨-, horder, hbehind⟩ := List.pairwise_append.1 order
      refine .cons (fun e he => ?_) (hothers horder)
      have hmem := mem_names.1 he
      obtain ⟨last, hlast⟩ :=
        List.getLast?_isSome.2 (nonempty d run List.mem_cons_self) |> Option.isSome_iff_exists.1
      obtain ⟨m, ms, hfirst⟩ := List.exists_cons_of_ne_nil
        (nonempty e.1 e.2 (List.mem_cons_of_mem _ hmem))
      have hm : m ∈ flat ps := List.mem_flatMap.2 ⟨_, hmem, by simp [lexemes, hfirst]⟩
      simpa [Lexeme.extent, hlast, hfirst] using
        hbehind last (List.mem_of_getLast? hlast) m hm

end Piece

/-! ### Names inside their declarations -/

theorem Introduced.goes_on {d : Declaration} {before run after : List Lexeme}
    (h : Introduced d before run after) :
    ∀ m ∈ before ++ run, m.token.isSymbol ';' = false ∧ m.token.isSymbol '\x7d' = false := by
  have word : ∀ m : Lexeme, m.token.kind = .identifier →
      m.token.isSymbol ';' = false ∧ m.token.isSymbol '\x7d' = false := by
    intro m hm
    simp [Token.isSymbol, hm]
  intro m hm
  rcases List.mem_append.1 hm with hbefore | hrun
  · cases h.place with
    | package keyword =>
      obtain rfl := List.mem_singleton.1 hbefore
      exact word _ (Token.kind_of_isWord keyword)
    | keyword known keyword =>
      obtain rfl := List.mem_singleton.1 hbefore
      exact word _ (Token.kind_of_isWord keyword)
    | assigned field goes_on =>
      have hgoes := goes_on m hbefore
      simp only [SourceText.followsName, SourceText.endsStatement, Bool.or_eq_false_iff] at hgoes
      exact ⟨hgoes.2.1.1, hgoes.2.2⟩
    | leading => cases hbefore
  · obtain ⟨names, hspells, -⟩ := h.spells
    rcases hspells.kind_or_isSymbol m hrun with hkind | hpoint
    · exact word m hkind
    · exact ⟨Parser.isSymbol_of_ne hpoint (by decide), Parser.isSymbol_of_ne hpoint (by decide)⟩

theorem Introduced.encloses {filename : String} {text rest : List Char} {d : Declaration}
    {ls lead before run after : List Lexeme} (h : Introduced d before run after)
    (tiling : Lexeme.Tiling filename text ls rest) (row : ls = lead ++ (before ++ run ++ after))
    (stands : ∃ before first inner last after,
      ls = before ++ first :: (inner ++ last :: after) ∧ Run d first inner last) :
    d.span.Encloses (Lexeme.extent run) := by
  obtain ⟨names, hspells, -⟩ := h.spells
  obtain ⟨l, tail, hsplit, hfirst⟩ := h.first_eq
  obtain ⟨k, ks, hrun⟩ := List.exists_cons_of_ne_nil hspells.ne_nil
  obtain ⟨z, hz, -⟩ := hspells.getLast?_eq
  have rising := tiling.precedes
  have horder := tiling.order
  obtain ⟨before', first, inner, last, after', hstands, run'⟩ := stands
  have hends : first.token.position.offset < last.token.position.offset := by
    rw [hstands] at rising
    exact (List.pairwise_cons.1 (List.pairwise_append.1 rising).2.1).1 last (by simp)
  have hlast : last ∈ ls := by simp [hstands]
  constructor
  · have hk : k ∈ l :: tail := by
      rw [← hsplit, hrun]
      simp
    rw [row, hsplit] at rising
    have hle := (List.pairwise_cons.1 (List.pairwise_append.1 (List.pairwise_append.1 rising).2.1).1).1
    rw [← hfirst, hrun]
    rcases List.mem_cons.1 hk with rfl | hk
    · exact Nat.le_refl _
    · exact Nat.le_of_lt (hle k hk)
  · have hstop : (Lexeme.extent run).stop = z.token.stop := by simp [Lexeme.extent, hz]
    rw [hstop, run'.ends]
    have hzmem : z ∈ before ++ run := List.mem_append_right _ (List.mem_of_getLast? hz)
    rw [row] at hlast rising horder
    rcases List.mem_append.1 hlast with hlead | hlast
    · have hlt := (List.pairwise_append.1 rising).2.2 last hlead l (by simp [hsplit])
      have hbegins := run'.begins
      rw [← hfirst] at hbegins
      rw [Lexeme.Precedes, hbegins] at hlt
      omega
    · rcases List.mem_append.1 hlast with hearly | hlate
      · obtain ⟨hsemicolon, hbrace⟩ := h.goes_on last hearly
        rcases run'.closes with hcloses | hcloses
        · exact absurd (hcloses.symm.trans hsemicolon) (by simp)
        · exact absurd (hcloses.symm.trans hbrace) (by simp)
      · exact (List.pairwise_append.1 (List.pairwise_append.1 horder).2.1).2.2 z hzmem last hlate

theorem Introduced.parts {filename : String} {text trail : List Char} {d : Declaration}
    {lead before run after : List Lexeme} (h : Introduced d before run after)
    (tiles : Lexer.Tiles (Lexer.start filename text) (lead ++ (before ++ run ++ after)) trail) :
    ∃ names, d.name? = some (".".intercalate names) ∧
      (∀ name ∈ names, Scan.isIdentifier name.toList = true) ∧
      List.Forall₂ (⟨filename, text⟩ : SourceText).Spells (DottedName.ofRun run).parts names := by
  obtain ⟨names, hspells, hname⟩ := h.spells
  have hrun : ∀ l ∈ run, l ∈ lead ++ (before ++ run ++ after) := fun l hl => by simp [hl]
  have hspelled : ∀ l ∈ run,
      (⟨filename, text⟩ : SourceText).Spells l.token.range l.token.text := by
    intro l hl
    have hslice := @Lexeme.Placed.slice_eq _ _ tiles.placed [] trail rfl l (hrun l hl)
    rw [← tiles.rest_eq] at hslice
    exact hslice
  have hnames := Lexeme.forall₂_parts hspelled
  rw [Lexeme.words_eq_of_dotted hspells] at hnames
  refine ⟨names, hname, fun name hmem => ?_, hnames⟩
  rw [← Lexeme.words_eq_of_dotted hspells] at hmem
  obtain ⟨l, hl, hkind, rfl⟩ := Lexeme.mem_words.1 hmem
  exact tiles.isIdentifier l (hrun l hl) hkind

/-! ### Names of a file -/

theorem Declaration.isNamed_of_namePlace? {d : Declaration} {place : NamePlace}
    (h : d.namePlace? = some place) : d.isNamed = true := by
  cases d with
  | block kind => cases kind <;> first | rfl | cases h
  | field | mapField | enumValue | rpc => rfl
  | _ => cases h

theorem SourceText.Finds.isNamed {s : SourceText} {d : Declaration} {range : ByteRange}
    (h : s.Finds d range) : d.isNamed = true := by
  cases h with
  | word placed => exact Declaration.isNamed_of_namePlace? placed
  | dotted => rfl

namespace SchemaFile.ReadFrom

variable {filename : String} {text : List Char} {file : SchemaFile} {ps : List Piece}
  {trail : List Char} {d : Declaration} {place : NamePlace}

theorem takesName (h : ReadFrom filename text file ps trail)
    (starts : (Declaration.preorderAll file.body).Pairwise
      fun d e => d.span.first.offset < e.span.first.offset) {l : Lexeme}
    (mem : .name d [l] ∈ ps) (word : l.token.kind = .identifier)
    (named : d.name? = some l.token.text) : file.TakesName (flat ps) d l := by
  refine ⟨word, named, ?_⟩
  obtain ⟨as, bs, hps⟩ := List.append_of_mem mem
  refine ⟨flat as, flat bs, by simp [hps], fun new placed clear => ?_⟩
  have howners : (ps.filterMap Piece.owner?).Pairwise
      fun d e => d.span.first.offset < e.span.first.offset := by
    rw [h.unfolds.owners]
    exact starts.sublist List.filter_sublist
  rw [hps, List.filterMap_append, List.filterMap_cons] at howners
  obtain ⟨-, hbehind, hearlier⟩ := List.pairwise_append.1 howners
  have hlater := (List.pairwise_cons.1 hbehind).1
  have hkept : ∀ {e : Declaration}, e.span.first.offset ≠ d.span.first.offset → ∀ t,
      (Renaming.only d new placed clear).rewrite e t = t := by
    intro e hne t
    refine if_neg fun hsame => hne ?_
    rw [hsame.2]
  have has := @Piece.allRenamed_of_kept (Renaming.only d new placed clear) as rfl
    fun e run he => hkept (Nat.ne_of_lt
      (hearlier e (List.mem_filterMap.2 ⟨_, he, rfl⟩) d List.mem_cons_self))
  have hbs := @Piece.allRenamed_of_kept (Renaming.only d new placed clear) bs rfl
    fun e run he => hkept (Nat.ne_of_gt (hlater e (List.mem_filterMap.2 ⟨_, he, rfl⟩)))
  have hrewrite : (Renaming.only d new placed clear).rewrite d = fun _ => new :=
    funext fun t => if_pos ⟨rfl, rfl⟩
  have hagain := h.again (Renaming.only d new placed clear)
  rw [hps, Piece.allRenamed_append, Piece.allRenamed_name, has, hbs, hrewrite] at hagain
  exact hagain

theorem exists_introduced (h : ReadFrom filename text file ps trail)
    (mem : d ∈ Declaration.preorderAll file.body) (named : d.isNamed = true) :
    ∃ run lead before after, .name d run ∈ ps ∧ Introduced d before run after ∧
      Lexer.Tiles (Lexer.start filename text) (lead ++ (before ++ run ++ after)) trail ∧
      flat ps = lead ++ (before ++ run ++ after) := by
  obtain ⟨run, hmem⟩ := h.mem_owners.2 ⟨mem, named⟩
  obtain ⟨lead, before, after, hintroduced, htiles⟩ := h.introduced_of_mem hmem
  have hread := Lexer.read_eq_iff.2 ⟨trail, h.tiles⟩
  have hagain := Lexer.read_eq_iff.2 ⟨trail, htiles⟩
  exact ⟨run, lead, before, after, hmem, hintroduced, htiles,
    congrArg Reading.lexemes (hread.symm.trans hagain)⟩

theorem eq_extent (h : ReadFrom filename text file ps trail) {run : List Lexeme}
    (mem : .name d run ∈ ps) {range : ByteRange}
    (found : (⟨filename, text⟩ : SourceText).Finds d range) : range = Lexeme.extent run := by
  obtain ⟨lead, before, after, hintroduced, htiles⟩ := h.introduced_of_mem mem
  cases found with
  | word placed named found =>
    obtain ⟨l, rfl, -, hnamed, hlocated⟩ :=
      hintroduced.locateName_eq_ok (s := ⟨filename, text⟩) htiles placed
    obtain rfl := Option.some.inj (named.symm.trans hnamed)
    exact Except.ok.inj (found.symm.trans hlocated)
  | dotted found =>
    have hlocated := hintroduced.locateDotted_eq_ok (s := ⟨filename, text⟩) htiles
    rw [Except.ok.inj (found.symm.trans hlocated)]
    rfl

theorem pairwise_apart (h : ReadFrom filename text file ps trail)
    (order : (flat ps).Pairwise fun l m => l.token.stop ≤ m.token.position.offset) :
    (Declaration.preorderAll file.body).Pairwise (⟨filename, text⟩ : SourceText).Apart := by
  have hnonempty : ∀ d run, .name d run ∈ ps → run ≠ [] := by
    intro d run hmem
    obtain ⟨_, _, _, hintroduced, -⟩ := h.introduced_of_mem hmem
    obtain ⟨names, hspells, -⟩ := hintroduced.spells
    exact hspells.ne_nil
  have hnames : (Piece.names ps).Pairwise fun a b =>
      (⟨filename, text⟩ : SourceText).Apart a.1 b.1 := by
    refine (Piece.pairwise_names hnonempty order).imp_of_mem ?_
    intro a b ha hb hle range range' found found'
    rw [h.eq_extent (Piece.mem_names.1 ha) found, h.eq_extent (Piece.mem_names.1 hb) found']
    exact hle
  have howners : ((Piece.names ps).map Prod.fst).Pairwise (⟨filename, text⟩ : SourceText).Apart :=
    List.pairwise_map.2 hnames
  rw [Piece.map_fst_names, h.unfolds.owners, List.pairwise_filter] at howners
  exact howners.imp fun hle range range' found found' =>
    hle found.isNamed found'.isNamed range range' found found'

end SchemaFile.ReadFrom

namespace SchemaFile

/-- The name of every declaration is found where the parser took it from, inside the declaration, and
the names of different declarations do not meet.  A search that sets in anywhere else finds whole
identifiers of the text, and is out of range at no place of it. -/
theorem locates_names :
    (∀ filename source file, parse filename source = .ok file →
      let s : SourceText := ⟨filename, source.toList⟩
      ∃ ls, (Lexer.start filename source.toList).read = ⟨ls, none⟩ ∧
        (∀ d place, file.Has (.declaration d) → d.namePlace? = some place →
          ∃ l ∈ ls, file.TakesName ls d l ∧
            s.locateName d.span.first l.token.text place = .ok l.token.range ∧
            d.span.Encloses l.token.range) ∧
        (∀ p, file.Has (.declaration (.package p)) →
          ∃ found names, s.locateDotted p.span.first "package" p.name = .ok found ∧
            p.name = ".".intercalate names ∧
            (∀ name ∈ names, Scan.isIdentifier name.toList = true) ∧
            List.Forall₂ s.Spells found.parts names ∧
            p.span.Encloses found.range) ∧
        (Declaration.preorderAll file.body).Pairwise s.Apart) ∧
    ∀ (s : SourceText) (p : Position) (name : String) (place : NamePlace),
      (∀ range, s.locateName p name place = .ok range →
        s.Spells range name ∧
          ∃ rest, Text.afterByte? s.text p.offset = some rest ∧
            ∃ l ∈ (⟨rest, p⟩ : Lexer).read.lexemes,
              l.token.kind = .identifier ∧ l.token.text = name ∧ range = l.token.range) ∧
      ((∃ n, s.locateName p name place = .error (.outOfRange n)) ↔
        Text.isPlace s.text p.offset = false) := by
  refine ⟨fun filename source file read => ?_, fun s p name place =>
    ⟨fun range => SourceText.word_of_locateName, SourceText.locateName_outOfRange_iff⟩⟩
  obtain ⟨ps, trail, origin⟩ := readFrom_of_parse read
  obtain ⟨ls, hread, hstands, -⟩ := exists_stands read
  obtain ⟨after, tiling⟩ := Lexer.exists_tiling hread
  obtain rfl : flat ps = ls :=
    congrArg Reading.lexemes ((Lexer.read_eq_iff.2 ⟨trail, origin.tiles⟩).symm.trans hread)
  have hbody : ∀ {d}, file.Has (.declaration d) → d ∈ Declaration.preorderAll file.body := by
    intro d has
    simpa [nodes] using mem_nodes_iff.2 has
  have hencloses : ∀ {d lead before run after}, d ∈ Declaration.preorderAll file.body →
      Introduced d before run after → flat ps = lead ++ (before ++ run ++ after) →
        d.span.Encloses (Lexeme.extent run) := by
    intro d lead before run after hd hintroduced hrow
    obtain ⟨before', first, inner, last, after', hsplit, hrun, -⟩ := hstands.exists_run d hd
    exact hintroduced.encloses tiling hrow ⟨before', first, inner, last, after', hsplit, hrun⟩
  refine ⟨flat ps, hread, fun d place has placed => ?_, fun p has => ?_,
    origin.pairwise_apart tiling.order⟩
  · obtain ⟨run, lead, before, behind, hmem, hintroduced, htiles, hrow⟩ :=
      origin.exists_introduced (hbody has) (Declaration.isNamed_of_namePlace? placed)
    obtain ⟨l, rfl, hword, hnamed, hlocated⟩ :=
      hintroduced.locateName_eq_ok (s := ⟨filename, source.toList⟩) htiles placed
    exact ⟨l, by simp [hrow], origin.takesName (hstands.starts tiling.precedes) hmem hword hnamed,
      hlocated, hencloses (hbody has) hintroduced hrow⟩
  · obtain ⟨run, lead, before, behind, -, hintroduced, htiles, hrow⟩ :=
      origin.exists_introduced (hbody has) rfl
    obtain ⟨names, hname, hidentifiers, hnames⟩ := hintroduced.parts htiles
    exact ⟨_, names, hintroduced.locateDotted_eq_ok (s := ⟨filename, source.toList⟩) htiles,
      Option.some.inj hname, hidentifiers, hnames, hencloses (hbody has) hintroduced hrow⟩

/-- A package with a comment in its name, and fields called like a label and like their type; and a
search in a text by a position of another file. -/
theorem locates_names_package :
    let source := "package a . /*;*/ b; message M \x7b .message.T optional = 1; map<T, T> T = 2; \x7d"
    let s : SourceText := ⟨"a.proto", source.toList⟩
    ∃ file ls, parse "a.proto" source = .ok file ∧
      (Lexer.start "a.proto" source.toList).read = ⟨ls, none⟩ ∧
      file.nodes.map Node.name? = [none, some "a.b", some "M", some "optional", some "T"] ∧
      (∃ d l, file.Has (.declaration d) ∧ d.namePlace? = some .beforeAssign ∧
        file.TakesName ls d l ∧
        s.locateName d.span.first l.token.text .beforeAssign = .ok l.token.range) ∧
      (∃ p found, file.Has (.declaration (.package p)) ∧
        s.locateDotted p.span.first "package" p.name = .ok found ∧ p.span.Encloses found.range) ∧
      (Declaration.preorderAll file.body).Pairwise s.Apart ∧
      s.locateName ⟨"b.proto", 8, 3, 1⟩ "a" .leading = .ok ⟨8, 9⟩ ∧
      s.Spells ⟨8, 9⟩ "a" := by
  intro source s
  have hnodes : (parse "a.proto" source).toOption.map (fun file => (file.nodes.map Node.name?,
      file.nodes.any (·.kind = .field), file.nodes.any (·.kind = .package))) =
        some ([none, some "a.b", some "M", some "optional", some "T"], true, true) := by
    decide +kernel
  have hfound : (s.locateName ⟨"b.proto", 8, 3, 1⟩ "a" .leading).toOption = some ⟨8, 9⟩ := by
    decide +kernel
  obtain ⟨file, hfile, hsome⟩ := Option.map_eq_some_iff.1 hnodes
  simp only [Prod.mk.injEq, List.any_eq_true, decide_eq_true_eq] at hsome
  obtain ⟨hnames, ⟨n, hn, hkind⟩, m, hm, hkind'⟩ := hsome
  have read := eq_ok_of_toOption hfile
  obtain ⟨ls, hread, hwords, hpackages, hapart⟩ := locates_names.1 "a.proto" source file read
  have found := eq_ok_of_toOption hfound
  refine ⟨file, ls, read, hread, hnames, ?_, ?_, hapart, found,
    ((locates_names.2 s ⟨"b.proto", 8, 3, 1⟩ "a" .leading).1 _ found).1⟩
  · cases n with
    | file f => cases hkind
    | declaration d =>
      have placed := Declaration.namePlace?_of_field (d := d) (.inl hkind)
      have has := mem_nodes_iff.1 hn
      obtain ⟨l, -, htakes, hlocated, -⟩ := hwords d _ has placed
      exact ⟨d, l, has, placed, htakes, hlocated⟩
  · cases m with
    | file f => cases hkind'
    | declaration d =>
      cases d with
      | package p =>
        have has := mem_nodes_iff.1 hm
        obtain ⟨found, names, hlocated, -, -, -, hencloses⟩ := hpackages p has
        exact ⟨p, found, has, hlocated, hencloses⟩
      | block kind => cases kind <;> cases hkind'
      | _ => cases hkind'

end SchemaFile

end SchemaLint
