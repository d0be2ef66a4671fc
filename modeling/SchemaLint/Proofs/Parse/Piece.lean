import SchemaLint.Locate
import SchemaLint.Parse.Declaration
import SchemaLint.Proofs.Parse.Dotted
import SchemaLint.Proofs.Rename.Tree

/-!
# Where the names of declarations stand

The lexemes of some declarations, cut so that every name that one of them introduces is a piece of
its own.  What stands around such a piece tells where a search from the declaration's first token
finds the name.
-/

set_option autoImplicit false
set_option relaxedAutoImplicit false

namespace SchemaLint

open SchemaLint.Parser (Dotted blockWord)

/-- The keyword behind which a declaration's name stands, if that is one identifier. -/
def Declaration.keyword? : Declaration → Option String
  | .rpc _ => some "rpc"
  | .block kind _ _ _ => if kind = .extend then none else some (blockWord kind)
  | _ => none

/-- Where a name stands among the lexemes of its declaration: those before it, its own, and those
behind it. -/
inductive Introduces : Declaration → List Lexeme → List Lexeme → List Lexeme → Prop
  | package {p : Package} {k semi : Lexeme} {run after : List Lexeme}
      (keyword : k.token.isWord "package" = true) (ends : semi.token.isSymbol ';' = true) :
      Introduces (.package p) [k] run (semi :: after)
  | keyword {d : Declaration} {word : String} {k l : Lexeme} {after : List Lexeme}
      (known : d.keyword? = some word) (keyword : k.token.isWord word = true) :
      Introduces d [k] [l] after
  | assigned {d : Declaration} {b l assign : Lexeme} {before after : List Lexeme}
      (field : d.kind = .field ∨ d.kind = .mapField)
      (goes_on : ∀ m ∈ before ++ [b], SourceText.followsName m.token = false)
      (type : b.token.kind = .identifier ∨ b.token.isSymbol '>' = true)
      (assigns : assign.token.isSymbol '=' = true) :
      Introduces d (before ++ [b]) [l] (assign :: after)
  | leading {v : EnumValue} {l : Lexeme} {after : List Lexeme} :
      Introduces (.enumValue v) [] [l] after

theorem Introduces.eq_enumValue {d : Declaration} {before run after : List Lexeme}
    (h : Introduces d before run after) (leads : before = []) :
    ∃ v l, d = .enumValue v ∧ run = [l] := by
  cases h with
  | leading => exact ⟨_, _, rfl, rfl⟩
  | assigned => simp at leads
  | _ => simp at leads

/-- A declaration's name stands between lexemes of the declaration. -/
structure Introduced (d : Declaration) (before run after : List Lexeme) : Prop where
  place : Introduces d before run after
  spells : ∃ names, Dotted run names ∧ d.name? = some (".".intercalate names)
  first : (before ++ run).head?.map (·.token.position) = some d.span.first

theorem Introduced.append {d : Declaration} {before run after : List Lexeme}
    (h : Introduced d before run after) (more : List Lexeme) :
    Introduced d before run (after ++ more) := by
  refine ⟨?_, h.spells, h.first⟩
  cases h.place with
  | package keyword ends => exact .package keyword ends
  | keyword known keyword => exact .keyword known keyword
  | assigned field goes_on type assigns => exact .assigned field goes_on type assigns
  | leading => exact .leading

theorem Introduced.isNamed {d : Declaration} {before run after : List Lexeme}
    (h : Introduced d before run after) : d.isNamed = true := by
  obtain ⟨names, -, hname⟩ := h.spells
  have hkind : d.kind ≠ .option := by
    cases h.place with
    | package => simp [Declaration.kind]
    | keyword known =>
      cases d with
      | block kind => cases kind <;> simp [Declaration.kind, BlockKind.nodeKind]
      | _ => simp_all [Declaration.keyword?, Declaration.kind]
    | assigned field => rcases field with h | h <;> simp [h]
    | leading => simp [Declaration.kind]
  simp [Declaration.isNamed, hkind, hname]

/-- A lexeme that belongs to no introduced name, or the lexemes of such a name with its
declaration. -/
inductive Piece
  | plain (l : Lexeme)
  | name (owner : Declaration) (run : List Lexeme)

namespace Piece

def lexemes : Piece → List Lexeme
  | .plain l => [l]
  | .name _ run => run

def owner? : Piece → Option Declaration
  | .plain _ => none
  | .name d _ => some d

def renamed (r : Renaming) : Piece → List Lexeme
  | .plain l => [l.move r.place]
  | .name d run => run.map fun l => (l.reword (r.rewrite d)).move r.place

def flat (ps : List Piece) : List Lexeme :=
  ps.flatMap lexemes

def allRenamed (r : Renaming) (ps : List Piece) : List Lexeme :=
  ps.flatMap (renamed r)

@[simp] theorem flat_nil : flat [] = [] := rfl

@[simp] theorem flat_plain (l : Lexeme) (ps : List Piece) :
    flat (.plain l :: ps) = l :: flat ps := rfl

@[simp] theorem flat_name (d : Declaration) (run : List Lexeme) (ps : List Piece) :
    flat (.name d run :: ps) = run ++ flat ps := rfl

@[simp] theorem flat_append (ps qs : List Piece) : flat (ps ++ qs) = flat ps ++ flat qs :=
  List.flatMap_append

@[simp] theorem flat_map_plain (ls : List Lexeme) : flat (ls.map .plain) = ls := by
  induction ls with
  | nil => rfl
  | cons l ls ih => rw [List.map_cons, flat_plain, ih]

variable (r : Renaming)

@[simp] theorem allRenamed_nil : allRenamed r [] = [] := rfl

@[simp] theorem allRenamed_plain (l : Lexeme) (ps : List Piece) :
    allRenamed r (.plain l :: ps) = l.move r.place :: allRenamed r ps := rfl

@[simp] theorem allRenamed_name (d : Declaration) (run : List Lexeme) (ps : List Piece) :
    allRenamed r (.name d run :: ps) =
      (run.map fun l => (l.reword (r.rewrite d)).move r.place) ++ allRenamed r ps := rfl

@[simp] theorem allRenamed_append (ps qs : List Piece) :
    allRenamed r (ps ++ qs) = allRenamed r ps ++ allRenamed r qs :=
  List.flatMap_append

@[simp] theorem allRenamed_map_plain (ls : List Lexeme) :
    allRenamed r (ls.map .plain) = ls.map (Lexeme.move r.place) := by
  induction ls with
  | nil => rfl
  | cons l ls ih => rw [List.map_cons, allRenamed_plain, ih, List.map_cons]

@[simp] theorem length_allRenamed (ps : List Piece) :
    (allRenamed r ps).length = (flat ps).length := by
  induction ps with
  | nil => rfl
  | cons p ps ih => cases p <;> simp [ih]

theorem map_isSymbol_allRenamed (ps : List Piece) (c : Char) :
    (allRenamed r ps).map (·.token.isSymbol c) = (flat ps).map (·.token.isSymbol c) := by
  induction ps with
  | nil => rfl
  | cons p ps ih => cases p <;> simp [ih]

theorem map_position_allRenamed (ps : List Piece) :
    (allRenamed r ps).map (·.token.position) = (flat ps).map fun l => r.place l.token.position := by
  induction ps with
  | nil => rfl
  | cons p ps ih => cases p <;> simp [ih]

theorem head_allRenamed {ps : List Piece} (h : flat ps ≠ []) :
    ∃ l tail l' tail', flat ps = l :: tail ∧ allRenamed r ps = l' :: tail' ∧
      ∀ c, l'.token.isSymbol c = l.token.isSymbol c := by
  obtain ⟨l, tail, hl⟩ := List.exists_cons_of_ne_nil h
  obtain ⟨l', tail', hl'⟩ : ∃ l' tail', allRenamed r ps = l' :: tail' := by
    refine List.exists_cons_of_ne_nil (List.ne_nil_of_length_pos ?_)
    rw [length_allRenamed, hl]
    simp
  refine ⟨l, tail, l', tail', hl, hl', fun c => ?_⟩
  have hmap := map_isSymbol_allRenamed r ps c
  rw [hl, hl'] at hmap
  exact (List.cons.inj hmap).1

theorem any_isSymbol_allRenamed {ps : List Piece} {n : Nat} (h : n < (flat ps).length) (c : Char)
    (rest rest' : List Lexeme) :
    ((allRenamed r ps ++ rest')[n]?).any (·.token.isSymbol c) =
      ((flat ps ++ rest)[n]?).any (·.token.isSymbol c) := by
  have hmap := congrArg (·[n]?) (map_isSymbol_allRenamed r ps c)
  simp only [List.getElem?_map] at hmap
  rw [List.getElem?_append_left (by simpa using h), List.getElem?_append_left h]
  rw [List.getElem?_eq_getElem (by simpa using h), List.getElem?_eq_getElem h] at hmap ⊢
  simpa using hmap

theorem exists_name {ps : List Piece} {n : Nat} {l l' : Lexeme} (old : (flat ps)[n]? = some l)
    (new : (allRenamed r ps)[n]? = some l') (differs : l'.token.text ≠ l.token.text) :
    ∃ as d run bs us vs, ps = as ++ .name d run :: bs ∧ run = us ++ l :: vs ∧
      (flat ps).take n = flat as ++ us ∧ l.token.kind = .identifier ∧
        l'.token.text = r.rewrite d l.token.text := by
  induction ps generalizing n with
  | nil => simp at old
  | cons p ps ih =>
    cases p with
    | plain k =>
      rw [flat_plain] at old
      rw [allRenamed_plain] at new
      cases n with
      | zero =>
        obtain rfl : k = l := by simpa using old
        obtain rfl : k.move r.place = l' := by simpa using new
        exact absurd rfl differs
      | succ n =>
        obtain ⟨as, d, run, bs, us, vs, rfl, hrun, htake, htext⟩ :=
          ih (by simpa using old) (by simpa using new)
        exact ⟨.plain k :: as, d, run, bs, us, vs, rfl, hrun, by simp [← htake], htext⟩
    | name d run =>
      rw [flat_name] at old
      rw [allRenamed_name] at new
      by_cases hn : n < run.length
      · rw [List.getElem?_append_left hn] at old
        rw [List.getElem?_append_left (by simpa using hn), List.getElem?_map, old] at new
        obtain rfl : (l.reword (r.rewrite d)).move r.place = l' := by simpa using new
        have hword : l.token.kind = .identifier := by
          refine Decidable.byContradiction fun hword => ?_
          rw [Lexeme.reword_of_ne hword] at differs
          exact differs rfl
        obtain ⟨us, vs, rfl, rfl⟩ : ∃ us vs, run = us ++ l :: vs ∧ us.length = n := by
          refine ⟨run.take n, run.drop (n + 1), ?_, by simp [Nat.le_of_lt hn]⟩
          obtain ⟨-, rfl⟩ := List.getElem?_eq_some_iff.1 old
          rw [List.getElem_cons_drop, List.take_append_drop]
        refine ⟨[], d, _, ps, us, vs, rfl, rfl, ?_, hword, Lexeme.text_move_reword hword _ _⟩
        simp
      · rw [Nat.not_lt] at hn
        rw [List.getElem?_append_right hn] at old
        rw [List.getElem?_append_right (by simpa using hn), List.length_map] at new
        obtain ⟨as, e, run', bs, us, vs, rfl, hrun, htake, htext⟩ := ih old new
        refine ⟨.name d run :: as, e, run', bs, us, vs, rfl, hrun, ?_, htext⟩
        rw [flat_name, List.take_append, List.take_of_length_le hn, htake, flat_name,
          List.append_assoc]

def AllIntroduced (ps : List Piece) : Prop :=
  ∀ as d run bs, ps = as ++ .name d run :: bs → ∃ lead before, flat as = lead ++ before ∧
    Introduced d before run (flat bs) ∧
      (before = [] → ∀ l ∈ lead.getLast?, SourceText.endsStatement l.token = true)

end Piece

/-- Some pieces name these declarations in this order, each where its name has to stand, and end
where a declaration may begin. -/
structure Unfolds (named : List Declaration) (ps : List Piece) : Prop where
  owners : ps.filterMap Piece.owner? = named
  introduced : Piece.AllIntroduced ps
  closes : ∀ l ∈ (Piece.flat ps).getLast?, SourceText.endsStatement l.token = true

namespace Unfolds

open Piece

theorem nil : Unfolds [] [] where
  owners := rfl
  introduced := by
    intro as d run bs h
    simp at h
  closes := by simp

theorem append {ds es : List Declaration} {ps qs : List Piece} (h : Unfolds ds ps)
    (h' : Unfolds es qs) : Unfolds (ds ++ es) (ps ++ qs) where
  owners := by rw [List.filterMap_append, h.owners, h'.owners]
  introduced := by
    intro as d run bs he
    rcases List.append_eq_append_iff.1 he with ⟨as', rfl, hqs⟩ | ⟨bs', hps, hbs⟩
    · obtain ⟨lead, before, hlead, hin, hbegin⟩ := h'.introduced as' d run bs hqs
      refine ⟨flat ps ++ lead, before, by simp [hlead], hin, fun hbefore l hl => ?_⟩
      rw [List.getLast?_append] at hl
      cases hlast : lead.getLast? with
      | none => exact h.closes l (by simpa [hlast] using hl)
      | some m =>
        obtain rfl : m = l := by simpa [hlast] using hl
        exact hbegin hbefore m hlast
    · cases bs' with
      | nil =>
        obtain ⟨lead, before, hlead, hin, hbegin⟩ :=
          h'.introduced [] d run bs (by simpa using hbs.symm)
        obtain ⟨rfl, rfl⟩ : lead = [] ∧ before = [] := by simpa using hlead.symm
        exact ⟨flat ps, [], by simp [hps], hin, fun _ l hl => h.closes l hl⟩
      | cons p bs' =>
        obtain ⟨rfl, rfl⟩ : .name d run = p ∧ bs = bs' ++ qs := by simpa using hbs
        obtain ⟨lead, before, hlead, hin, hbegin⟩ := h.introduced as d run bs' hps
        exact ⟨lead, before, hlead, by simpa using hin.append (flat qs), hbegin⟩
  closes := by
    intro l hl
    rw [flat_append, List.getLast?_append] at hl
    cases hlast : (flat qs).getLast? with
    | none => exact h.closes l (by simpa [hlast] using hl)
    | some m =>
      obtain rfl : m = l := by simpa [hlast] using hl
      exact h'.closes m hlast

private theorem filterMap_owner?_plain (ls : List Lexeme) :
    (ls.map Piece.plain).filterMap owner? = [] := by
  rw [List.filterMap_map]
  simp [Function.comp_def, owner?]

theorem plain {used : List Lexeme}
    (closes : ∀ l ∈ used.getLast?, SourceText.endsStatement l.token = true) :
    Unfolds [] (used.map .plain) where
  owners := filterMap_owner?_plain used
  introduced := by
    intro as d run bs h
    have hmem : Piece.name d run ∈ used.map Piece.plain := by
      rw [h]
      simp
    simp at hmem
  closes := by simpa using closes

private theorem eq_of_single_name {before after : List Lexeme} {as bs : List Piece}
    {d e : Declaration} {run run' : List Lexeme}
    (h : before.map Piece.plain ++ .name d run :: after.map .plain = as ++ .name e run' :: bs) :
    as = before.map .plain ∧ d = e ∧ run = run' ∧ bs = after.map .plain := by
  induction before generalizing as with
  | nil =>
    cases as with
    | nil =>
      obtain ⟨⟨rfl, rfl⟩, rfl⟩ : (d = e ∧ run = run') ∧ after.map Piece.plain = bs := by
        simpa using h
      exact ⟨rfl, rfl, rfl, rfl⟩
    | cons a as =>
      obtain ⟨-, hafter⟩ : .name d run = a ∧ after.map Piece.plain = as ++ .name e run' :: bs := by
        simpa using h
      have hmem : Piece.name e run' ∈ after.map Piece.plain := by
        rw [hafter]
        simp
      simp at hmem
  | cons b before ih =>
    cases as with
    | nil => simp at h
    | cons a as =>
      obtain ⟨rfl, htail⟩ : Piece.plain b = a ∧ before.map Piece.plain ++
          .name d run :: after.map .plain = as ++ .name e run' :: bs := by simpa using h
      obtain ⟨rfl, hrest⟩ := ih htail
      exact ⟨rfl, hrest⟩

theorem name {d : Declaration} {before run after : List Lexeme} {last : Lexeme}
    (introduced : Introduced d before run (after ++ [last]))
    (closes : SourceText.endsStatement last.token = true) :
    Unfolds [d] (before.map .plain ++ .name d run :: (after ++ [last]).map .plain) where
  owners := by
    rw [List.filterMap_append, List.filterMap_cons, filterMap_owner?_plain, filterMap_owner?_plain]
    rfl
  introduced := by
    intro as e run' bs h
    obtain ⟨rfl, rfl, rfl, rfl⟩ := eq_of_single_name h
    exact ⟨[], before, by simp, by rw [flat_map_plain]; exact introduced, by simp⟩
  closes := by
    intro l hl
    obtain rfl : last = l := by simpa [← List.append_assoc] using hl
    exact closes

end Unfolds

end SchemaLint
