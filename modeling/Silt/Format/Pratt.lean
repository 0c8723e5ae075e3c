import Mathlib.Logic.Function.Iterate
import Silt.Format.Operators

/-!
# What the parser reads

The tokens of a tree are read as the tree if each operator in it is read where it stands: the parser
that reads it goes on with the operator, and no operand that ends in front of the operator takes it.
`Builds` says that of a tree, and `parse_iff` that tokens are read as a tree if and only if they are
the tokens of one that `Builds` and is within the limits of the parser.

## Main definitions

* `Link` : what can follow an operand.
* `Reader`, `takes` : what reads tokens, and whether it goes on with a link.
* `opens` : what is still reading at the end of a tree.
* `links` : what follows the leftmost operand of a tree, outside parentheses.
* `Builds` : the tree is what its tokens are read as.
* `nesting`, `Fits` : how deep the parser goes for a tree, and that it may.

## Main results

* `parse_iff` : the parser is right and complete.
* `eq_of_flat_eq` : trees that are the same but for parentheses have different tokens.
-/

namespace Silt.Format.Operators

open List Function

variable {minBp fuel : Nat} {ts rest us : List Tok} {t t' : Expr} {args : List Expr}

theorem Expr.induct {motive : Expr → Prop} (name : ∀ x, motive (.name x))
    (int : ∀ i, motive (.int i)) (unary : ∀ op t, motive t → motive (.unary op t))
    (infixed : ∀ l op r, motive l → motive r → motive (.infixed l op r))
    (question : ∀ t, motive t → motive (.question t))
    (field : ∀ t name, motive t → motive (.field t name))
    (call : ∀ t args comma, motive t → (∀ arg ∈ args, motive arg) → motive (.call t args comma))
    (ascription : ∀ t ty ps, motive t → motive (.ascription t ty ps))
    (paren : ∀ t, motive t → motive (.paren t)) (t : Expr) : motive t :=
  @Expr.rec motive (fun args => ∀ arg ∈ args, motive arg) name int unary infixed question field call
    ascription paren nofun (fun _ _ h hs => forall_mem_cons.mpr ⟨h, hs⟩) t

/-! ### Tokens of a tree -/

/-- The tokens of a text without its spaces. -/
def toks : List Piece → List Tok
  | .tok t :: ps => t :: toks ps
  | .space :: ps => toks ps
  | [] => []

@[simp] theorem toks_nil : toks [] = [] := rfl

@[simp] theorem toks_tok (t : Tok) (ps : List Piece) : toks (.tok t :: ps) = t :: toks ps := rfl

@[simp] theorem toks_space (ps : List Piece) : toks (.space :: ps) = toks ps := rfl

@[simp] theorem toks_append (ps qs : List Piece) : toks (ps ++ qs) = toks ps ++ toks qs := by
  induction ps with
  | nil => rfl
  | cons p ps ih => cases p <;> simp [ih]

@[simp] theorem toks_replicate (n : Nat) (t : Tok) :
    toks (List.replicate n (.tok t)) = List.replicate n t := by
  induction n with
  | zero => rfl
  | succ n ih => simp [replicate_succ, ih]

/-- The tokens of a tree. -/
def flat (t : Expr) : List Tok :=
  toks (spell t)

def flatArgs (args : List Expr) (comma : Bool) : List Tok :=
  toks (spellArgs args comma)

def flatType (ty : TypeName) (parens : Nat) : List Tok :=
  toks (spellType ty parens)

@[simp] theorem flat_name (x : String) : flat (.name x) = [.ident x] := rfl

theorem flat_int (i : Int) :
    flat (.int i) = if i = smallest then [minus, .int i] else [.int i] := by
  rw [flat, spell]
  split_ifs <;> rfl

@[simp] theorem toks_spellInfix (op : Infix) : toks (spellInfix op) = [.infixed op] := by
  cases op <;> rfl

@[simp] theorem flat_neg (t : Expr) : flat (.unary .neg t) = minus :: flat t := by
  simp [flat, spell, spellUnary]

@[simp] theorem flat_not (t : Expr) : flat (.unary .not t) = .not :: flat t := by
  simp [flat, spell, spellUnary]

@[simp] theorem flat_infixed (l r : Expr) (op : Infix) :
    flat (.infixed l op r) = flat l ++ .infixed op :: flat r := by
  simp [flat, spell]

@[simp] theorem flat_question (t : Expr) : flat (.question t) = flat t ++ [.question] := by
  simp [flat, spell]

@[simp] theorem flat_field (t : Expr) (name : String) :
    flat (.field t name) = flat t ++ [.dot, .ident name] := by
  simp [flat, spell]

@[simp] theorem flat_call (t : Expr) (args : List Expr) (comma : Bool) :
    flat (.call t args comma) = flat t ++ .lparen :: (flatArgs args comma ++ [.rparen]) := by
  simp [flat, flatArgs, spell]

@[simp] theorem flat_ascription (t : Expr) (ty : TypeName) (ps : Nat) :
    flat (.ascription t ty ps) = flat t ++ .asKeyword :: flatType ty ps := by
  simp [flat, flatType, spell]

@[simp] theorem flat_paren (t : Expr) : flat (.paren t) = .lparen :: (flat t ++ [.rparen]) := by
  simp [flat, spell]

@[simp] theorem flatArgs_nil_false : flatArgs [] false = [] := rfl

@[simp] theorem flatArgs_nil_true : flatArgs [] true = [.comma] := rfl

theorem flatArgs_singleton (t : Expr) (comma : Bool) :
    flatArgs [t] comma = flat t ++ flatArgs [] comma := by
  rw [flatArgs, spellArgs, flatArgs, flat]
  simp

theorem flatArgs_cons (t u : Expr) (ts : List Expr) (comma : Bool) :
    flatArgs (t :: u :: ts) comma = flat t ++ .comma :: flatArgs (u :: ts) comma := by
  rw [flatArgs, spellArgs, flatArgs, flat]
  simp

/-! ### What reads tokens -/

/-- What can follow an operand. -/
inductive Link
  | infixed (op : Infix)
  | question
  | call
  | field
  | ascription
deriving DecidableEq

def Link.bp : Link → Nat
  | .infixed op => op.leftBp
  | .question => callBp
  | .call => callBp
  | .field => fieldBp
  | .ascription => asBp

/-- What reads tokens: the loop of `parseExprBp` for operators from a binding power on, or the
reading of a type. -/
inductive Reader
  | operand (minBp : Nat)
  | typeName

/-- Whether the reader goes on with the link. -/
def takes : Reader → Link → Bool
  | .operand minBp, .question => minBp ≠ Infix.pipe.rightBp
  | .operand minBp, link => minBp ≤ link.bp
  | .typeName, .call => true
  | .typeName, .field => true
  | .typeName, _ => false

theorem takes_operand {link : Link} (h : link ≠ .question) :
    takes (.operand minBp) link = true ↔ ¬ link.bp < minBp := by
  rw [Nat.not_lt]
  cases link with
  | question => exact absurd rfl h
  | _ => exact decide_eq_true_iff

theorem not_takes_operand {link : Link} (h : link ≠ .question) :
    takes (.operand minBp) link = false ↔ link.bp < minBp := by
  rw [← Bool.not_eq_true, takes_operand h, not_not]

/-- The link that the tokens start with. -/
def linkOf : List Tok → Option Link
  | .question :: _ => some .question
  | .lparen :: _ => some .call
  | .infixed op :: _ => some (.infixed op)
  | .dot :: _ => some .field
  | .asKeyword :: _ => some .ascription
  | _ => none

/-- The reader does not go on with the tokens. -/
def Stops (ts : List Tok) (reader : Reader) : Prop :=
  ∀ link, linkOf ts = some link → takes reader link = false

/-- What is still reading at the end of the tree, apart from who reads the tree. -/
def opens : Expr → List Reader
  | .unary _ t => .operand unaryBp :: opens t
  | .infixed _ op r => .operand op.rightBp :: opens r
  | .ascription _ _ 0 => [.typeName]
  | _ => []

/-- What follows the leftmost operand of the tree outside parentheses, the last first. -/
def links : Expr → List Link
  | .infixed l op _ => .infixed op :: links l
  | .question t => .question :: links t
  | .field t _ => .field :: links t
  | .call t _ _ => .call :: links t
  | .ascription t _ _ => .ascription :: links t
  | _ => []

/-- The link may follow the tree, which is read from the binding power on. -/
structure Follows (minBp : Nat) (t : Expr) (link : Link) : Prop where
  goesOn : takes (.operand minBp) link = true
  free : ∀ reader ∈ opens t, takes reader link = false

/-- The tree is what its tokens are read as from the binding power on. -/
inductive Builds : Nat → Expr → Prop
  | name (minBp : Nat) (x : String) : Builds minBp (.name x)
  | int (minBp : Nat) (i : Int) : Builds minBp (.int i)
  | unary (minBp : Nat) (op : UnaryOp) {t : Expr} (h : Builds unaryBp t) :
      Builds minBp (.unary op t)
  | infixed {minBp : Nat} {l r : Expr} {op : Infix} (hl : Builds minBp l)
      (hop : Follows minBp l (.infixed op)) (hr : Builds op.rightBp r) :
      Builds minBp (.infixed l op r)
  | question {minBp : Nat} {t : Expr} (h : Builds minBp t) (hop : Follows minBp t .question) :
      Builds minBp (.question t)
  | field {minBp : Nat} {t : Expr} (name : String) (h : Builds minBp t)
      (hop : Follows minBp t .field) : Builds minBp (.field t name)
  | call {minBp : Nat} {t : Expr} {args : List Expr} {comma : Bool} (h : Builds minBp t)
      (hop : Follows minBp t .call) (hargs : ∀ arg ∈ args, Builds 0 arg)
      (hcomma : comma = true → args ≠ []) : Builds minBp (.call t args comma)
  | ascription {minBp : Nat} {t : Expr} (ty : TypeName) (parens : Nat) (h : Builds minBp t)
      (hop : Follows minBp t .ascription) : Builds minBp (.ascription t ty parens)
  | paren (minBp : Nat) {t : Expr} (h : Builds 0 t) : Builds minBp (.paren t)

/-! ### Trees within the limits -/

mutual

/-- How many levels the parser goes down for the tree. -/
def nesting : Expr → Nat
  | .name _ | .int _ => 0
  | .unary _ t | .paren t => nesting t + 1
  | .infixed l _ r => max (nesting l) (nesting r + 1)
  | .question t | .field t _ => nesting t
  | .call t args _ => max (nesting t) (nestingArgs args)
  | .ascription t _ parens => max (nesting t) (parens + 1)

def nestingArgs : List Expr → Nat
  | [] => 0
  | t :: ts => max (nesting t + 1) (nestingArgs ts)

end

/-- The limits allow the tree at the depth. -/
structure Fits (limits : Limits) (depth : Nat) (t : Expr) : Prop where
  nested : depth + nesting t ≤ limits.maxDepth
  low : height t ≤ limits.maxExprOperations

instance (limits : Limits) (depth : Nat) (t : Expr) : Decidable (Fits limits depth t) :=
  decidable_of_iff (depth + nesting t ≤ limits.maxDepth ∧ height t ≤ limits.maxExprOperations)
    ⟨fun h => ⟨h.1, h.2⟩, fun h => ⟨h.nested, h.low⟩⟩

section

variable {limits : Limits} {depth : Nat}

theorem le_height_call (t : Expr) (args : List Expr) (comma : Bool) :
    max (height t) (heightArgs args) ≤ height (.call t args comma) := by
  cases t with
  | name x =>
    simp only [height]
    split_ifs <;> omega
  | _ => simp [height]

theorem lt_height_of_mem {arg : Expr} (h : arg ∈ args) :
    height arg < heightArgs args ∧ nesting arg < nestingArgs args := by
  induction args with
  | nil => cases h
  | cons t ts ih =>
    rw [heightArgs, nestingArgs]
    grind

theorem Fits.of_le {depth' : Nat} (h : Fits limits depth t)
    (hn : depth' + nesting t' ≤ depth + nesting t) (hh : height t' ≤ height t) :
    Fits limits depth' t' :=
  ⟨Nat.le_trans hn h.nested, Nat.le_trans hh h.low⟩

theorem Fits.not_le (h : Fits limits (depth + 1) t) : ¬ limits.maxDepth ≤ depth := by
  have := h.nested
  omega

/-! ### Trees the parser yields -/

theorem Stops.of_nil (reader : Reader) : Stops [] reader := nofun

theorem stops_rparen (ts : List Tok) (reader : Reader) : Stops (.rparen :: ts) reader := nofun

theorem stops_comma (ts : List Tok) (reader : Reader) : Stops (.comma :: ts) reader := nofun

theorem stops_of_linkOf {link : Link} {reader : Reader} (h : linkOf ts = some link)
    (ht : takes reader link = false) : Stops ts reader := by
  intro link' h'
  rw [h, Option.some_inj] at h'
  rw [← h', ht]

theorem flatType_zero (ty : TypeName) :
    flatType ty 0 = match ty.module with
      | some m => [.ident m, .dot, .ident ty.name]
      | none => [.ident ty.name] := by
  cases ty with
  | mk module name => cases module <;> rfl

theorem flatType_succ (ty : TypeName) (ps : Nat) :
    flatType ty (ps + 1) = .lparen :: (flatType ty ps ++ [.rparen]) := by
  simp only [flatType, spellType, toks_append, toks_replicate]
  rw [replicate_succ, replicate_succ']
  simp

theorem parseQualifiedName_sound (first : String) (ts : List Tok) :
    .ident first :: ts =
      flatType (parseQualifiedName first ts).1 0 ++ (parseQualifiedName first ts).2 := by
  unfold parseQualifiedName
  split
  · simp [flatType_zero]
  · simp [flatType_zero]

/-- What a type is read from, that its reading stopped, and how deep it is. -/
theorem parseType_sound {ps : Nat} {ty : TypeName}
    (h : parseType limits depth ts = some (ps, ty, rest)) :
    ts = flatType ty ps ++ rest ∧ (ps = 0 → Stops rest .typeName) ∧
      depth + ps < limits.maxDepth := by
  induction depth, ts using parseType.induct limits generalizing ps rest with
  | case1 depth ts hd => simp [parseType, hd] at h
  | case2 depth ts hd inner ty' ts' hrc ih =>
    rw [parseType, if_neg hd, hrc] at h
    obtain ⟨rfl, rfl, rfl⟩ : inner + 1 = ps ∧ ty' = ty ∧ ts' = rest := by simpa using h
    obtain ⟨hts, -, hlt⟩ := ih hrc
    rw [hts, flatType_succ]
    exact ⟨by simp, nofun, by omega⟩
  | case3 depth ts hd hnn =>
    rw [parseType, if_neg hd] at h
    grind
  | case4 depth x ts ty' ts' hn hh =>
    simp [parseType, hn, hh] at h
  | case5 depth x ts ty' ts' hn hh =>
    rw [parseType] at h
    simp only [hn, hh, if_false] at h
    obtain ⟨rfl, rfl, rfl⟩ : 0 = ps ∧ ty' = ty ∧ ts' = rest := by simpa using h
    have hs := parseQualifiedName_sound x ts
    rw [hn] at hs
    refine ⟨hs, fun _ link hln => ?_, by omega⟩
    cases ts' with
    | nil => cases hln
    | cons tok ts' =>
      cases tok <;> simp_all [linkOf]
      all_goals
        subst hln
        rfl
  | case6 depth ts h1 h2 =>
    unfold parseType at h
    grind

/-- The tree was read from the binding power on at the depth, and what reads it stops at the
rest. -/
structure Reads (limits : Limits) (depth minBp : Nat) (t : Expr) (rest : List Tok) : Prop where
  fits : Fits limits depth t
  builds : Builds minBp t
  stops : Stops rest (.operand minBp)
  opens_stop : ∀ reader ∈ opens t, Stops rest reader

/-- What `parseExprBp` returns with the fuel is right. -/
def ExprSound (limits : Limits) (fuel : Nat) : Prop :=
  ∀ depth minBp ts t rest, parseExprBp limits fuel depth minBp ts = some (t, rest) →
    ts = flat t ++ rest ∧ Reads limits (depth + 1) minBp t rest

def UnarySound (limits : Limits) (fuel : Nat) : Prop :=
  ∀ depth ts t rest, parseUnary limits fuel depth ts = some (t, rest) → depth ≤ limits.maxDepth →
    ts = flat t ++ rest ∧ depth + nesting t ≤ limits.maxDepth ∧ (∀ minBp, Builds minBp t) ∧
      ∀ reader ∈ opens t, Stops rest reader

def LoopSound (limits : Limits) (fuel : Nat) : Prop :=
  ∀ depth minBp left ts t rest, parseLoop limits fuel depth minBp left ts = some (t, rest) →
    depth + nesting left ≤ limits.maxDepth → Builds minBp left →
      (∀ reader ∈ opens left, Stops ts reader) →
        flat left ++ ts = flat t ++ rest ∧ Reads limits depth minBp t rest

def ArgsSound (limits : Limits) (fuel : Nat) : Prop :=
  ∀ depth ts args comma rest, parseArgs limits fuel depth ts = some (args, comma, rest) →
    depth ≤ limits.maxDepth →
      ts = flatArgs args comma ++ .rparen :: rest ∧ depth + nestingArgs args ≤ limits.maxDepth ∧
        (∀ arg ∈ args, Builds 0 arg) ∧ (comma = true → args ≠ [])

theorem exprSound_succ (hu : UnarySound limits fuel) (hlp : LoopSound limits fuel) :
    ExprSound limits (fuel + 1) := by
  intro depth minBp ts t rest h
  rw [parseExprBp] at h
  split_ifs at h with hd
  obtain ⟨⟨left, ts'⟩, hlf, hrn⟩ := Option.bind_eq_some_iff.mp h
  obtain ⟨rfl, hn, hb, ho⟩ := hu _ ts left ts' hlf (by omega)
  exact hlp _ minBp left ts' t rest hrn hn (hb minBp) ho

theorem unarySound_succ (he : ExprSound limits fuel) : UnarySound limits (fuel + 1) := by
  intro depth ts t rest h hd
  unfold parseUnary at h
  split at h
  · rename_i ts
    split_ifs at h with hh
    · obtain ⟨rfl, rfl⟩ : .int smallest = t ∧ ts.tail = rest := by simpa using h
      refine ⟨?_, hd, fun m => .int m smallest, nofun⟩
      cases ts with
      | nil => simp at hh
      | cons tok ts =>
        obtain rfl : tok = .int smallest := by simpa using hh
        simp [flat_int]
    · obtain ⟨⟨operand, ts'⟩, hop, hrn⟩ := Option.bind_eq_some_iff.mp h
      obtain ⟨rfl, rfl⟩ : .unary .neg operand = t ∧ ts' = rest := by simpa using hrn
      obtain ⟨rfl, hrd⟩ := he _ _ _ _ _ hop
      have hn := hrd.fits.nested
      refine ⟨by simp, by rw [nesting]; omega, fun m => .unary m .neg hrd.builds, ?_⟩
      exact forall_mem_cons.mpr ⟨hrd.stops, hrd.opens_stop⟩
  · rename_i ts
    obtain ⟨⟨operand, ts'⟩, hop, hrn⟩ := Option.bind_eq_some_iff.mp h
    obtain ⟨rfl, rfl⟩ : .unary .not operand = t ∧ ts' = rest := by simpa using hrn
    obtain ⟨rfl, hrd⟩ := he _ _ _ _ _ hop
    have hn := hrd.fits.nested
    refine ⟨by simp, by rw [nesting]; omega, fun m => .unary m .not hrd.builds, ?_⟩
    exact forall_mem_cons.mpr ⟨hrd.stops, hrd.opens_stop⟩
  · rename_i i ts
    split_ifs at h with hi
    obtain ⟨rfl, rfl⟩ : .int i = t ∧ ts = rest := by simpa using h
    exact ⟨by simp [flat_int, hi], hd, fun m => .int m i, nofun⟩
  · rename_i x ts
    obtain ⟨rfl, rfl⟩ : .name x = t ∧ ts = rest := by simpa using h
    exact ⟨by simp, hd, fun m => .name m x, nofun⟩
  · rename_i ts
    obtain ⟨⟨inner, ts'⟩, hop, hrn⟩ := Option.bind_eq_some_iff.mp h
    obtain ⟨rfl, hrd⟩ := he _ _ _ _ _ hop
    have hn := hrd.fits.nested
    dsimp only at hrn
    split at hrn
    · rename_i ts'
      obtain ⟨rfl, rfl⟩ : .paren inner = t ∧ ts' = rest := by simpa using hrn
      exact ⟨by simp, by rw [nesting]; omega, fun m => .paren m hrd.builds, nofun⟩
    · cases hrn
  · cases h

theorem argsSound_succ (he : ExprSound limits fuel) (har : ArgsSound limits fuel) :
    ArgsSound limits (fuel + 1) := by
  intro depth ts args comma rest h hd
  unfold parseArgs at h
  split at h
  · rename_i ts
    obtain ⟨rfl, rfl, rfl⟩ : [] = args ∧ false = comma ∧ ts = rest := by simpa using h
    exact ⟨by simp, hd, nofun, nofun⟩
  · obtain ⟨⟨arg, ts'⟩, hop, hrn⟩ := Option.bind_eq_some_iff.mp h
    obtain ⟨rfl, hrd⟩ := he _ _ _ _ _ hop
    have hn := hrd.fits.nested
    dsimp only at hrn
    split at hrn
    · rename_i ts'
      obtain ⟨⟨args', comma', ts''⟩, hrs, hls⟩ := Option.bind_eq_some_iff.mp hrn
      obtain ⟨rfl, rfl, rfl⟩ : arg :: args' = args ∧ (comma' || args'.isEmpty) = comma ∧
        ts'' = rest := by simpa using hls
      obtain ⟨rfl, hns, ha, hc⟩ := har _ _ _ _ _ hrs hd
      refine ⟨?_, by rw [nestingArgs]; omega, forall_mem_cons.mpr ⟨hrd.builds, ha⟩,
        fun _ => cons_ne_nil _ _⟩
      cases args' with
      | nil =>
        cases comma' with
        | true => exact absurd rfl (hc rfl)
        | false => simp [flatArgs_singleton]
      | cons u us => simp [flatArgs_cons]
    · simp only [Option.some.injEq, Prod.mk.injEq] at hrn
      obtain ⟨rfl, rfl, rfl⟩ := hrn
      refine ⟨by simp [flatArgs_singleton], by rw [nestingArgs, nestingArgs]; omega, ?_, nofun⟩
      simpa using hrd.builds
    · cases hrn

/-- A link was read behind `left`, and what follows it is read on. -/
theorem Follows.of_reads {left : Expr} {link : Link} (hln : linkOf ts = some link)
    (hg : takes (.operand minBp) link = true) (ho : ∀ reader ∈ opens left, Stops ts reader) :
    Follows minBp left link :=
  ⟨hg, fun reader hrd => ho reader hrd link hln⟩

theorem loopSound_succ (hex : ExprSound limits fuel) (hlo : LoopSound limits fuel)
    (har : ArgsSound limits fuel) : LoopSound limits (fuel + 1) := by
  intro depth minBp left ts t rest h hnl hlf ho
  unfold parseLoop at h
  split at h
  · cases h
  rename_i hhi
  -- where the loop ends, `left` is the tree
  have he : some (left, ts) = some (t, rest) → Stops ts (.operand minBp) →
      flat left ++ ts = flat t ++ rest ∧ Reads limits depth minBp t rest := by
    intro heq hs
    obtain ⟨rfl, rfl⟩ : left = t ∧ ts = rest := by simpa using heq
    exact ⟨rfl, ⟨hnl, by omega⟩, hlf, hs, ho⟩
  split at h
  · rename_i ts
    split_ifs at h with hbp
    · exact he h (stops_of_linkOf rfl (by simp [takes, hbp]))
    · have hg : takes (.operand minBp) .question = true := by simp [takes, hbp]
      have hn := hlo _ _ _ _ _ _ h hnl (.question hlf (.of_reads rfl hg ho)) nofun
      simpa using hn
  · rename_i ts
    split_ifs at h with hbp
    · exact he h (stops_of_linkOf rfl ((not_takes_operand (by nofun)).mpr hbp))
    · obtain ⟨⟨args, comma, ts'⟩, hre, hrn⟩ := Option.bind_eq_some_iff.mp h
      obtain ⟨rfl, hns, ha, hc⟩ := har _ _ _ _ _ hre (by omega)
      have hg := (@takes_operand minBp .call (by nofun)).mpr hbp
      have hn := hlo _ _ _ _ _ _ hrn (by rw [nesting]; omega)
        (.call hlf (.of_reads rfl hg ho) ha hc) nofun
      simpa using hn
  · rename_i op ts
    split_ifs at h with hbp
    · exact he h (stops_of_linkOf rfl ((not_takes_operand (by nofun)).mpr hbp))
    · obtain ⟨⟨right, ts'⟩, hre, hrn⟩ := Option.bind_eq_some_iff.mp h
      obtain ⟨rfl, hrd⟩ := hex _ _ _ _ _ hre
      have hns := hrd.fits.nested
      have hg := (@takes_operand minBp (.infixed op) (by nofun)).mpr hbp
      have hn := hlo _ _ _ _ _ _ hrn (by rw [nesting]; omega)
        (.infixed hlf (.of_reads rfl hg ho) hrd.builds)
        (forall_mem_cons.mpr ⟨hrd.stops, hrd.opens_stop⟩)
      simpa using hn
  · rename_i ts
    split_ifs at h with hbp
    · exact he h (stops_of_linkOf rfl ((not_takes_operand (by nofun)).mpr hbp))
    · have hg := (@takes_operand minBp .field (by nofun)).mpr hbp
      split at h
      · rename_i name ts
        have hn := hlo _ _ _ _ _ _ h hnl (.field name hlf (.of_reads rfl hg ho)) nofun
        simpa using hn
      · cases h
  · rename_i ts
    split_ifs at h with hbp
    · exact he h (stops_of_linkOf rfl ((not_takes_operand (by nofun)).mpr hbp))
    · obtain ⟨⟨ps, ty, ts'⟩, hre, hrn⟩ := Option.bind_eq_some_iff.mp h
      obtain ⟨rfl, hs, hns⟩ := parseType_sound hre
      have hg := (@takes_operand minBp .ascription (by nofun)).mpr hbp
      have ht : ∀ reader ∈ opens (.ascription left ty ps), Stops ts' reader := by
        cases ps with
        | zero => simpa [opens] using hs rfl
        | succ ps => simp [opens]
      have hn := hlo _ _ _ _ _ _ hrn (by rw [nesting]; omega)
        (.ascription ty ps hlf (.of_reads rfl hg ho)) ht
      simpa using hn
  · rename_i hq hlp hi hd has
    refine he h fun link hln => ?_
    cases ts with
    | nil => cases hln
    | cons tok ts => cases tok <;> simp_all [linkOf]

/-- All that is returned with the fuel is right. -/
theorem sound (limits : Limits) (fuel : Nat) :
    ExprSound limits fuel ∧ UnarySound limits fuel ∧ LoopSound limits fuel ∧
      ArgsSound limits fuel := by
  induction fuel with
  | zero =>
    refine ⟨fun _ _ _ _ _ h => ?_, fun _ _ _ _ h => ?_, fun _ _ _ _ _ _ h => ?_,
      fun _ _ _ _ _ h => ?_⟩
    · simp [parseExprBp] at h
    · simp [parseUnary] at h
    · simp [parseLoop] at h
    · simp [parseArgs] at h
  | succ fuel ih =>
    obtain ⟨he, hu, hlp, ha⟩ := ih
    exact ⟨exprSound_succ hu hlp, unarySound_succ he,
      loopSound_succ he hlp ha, argsSound_succ he ha⟩

/-! ### Trees that are read -/

/-- The first token of a tree is none that ends an operand, and not the digits of the smallest
integer. -/
theorem flat_head (t : Expr) :
    ∃ tok ts, flat t = tok :: ts ∧ tok ≠ .rparen ∧ tok ≠ .int smallest := by
  induction t using Expr.induct with
  | name x => exact ⟨_, _, rfl, nofun, nofun⟩
  | int i =>
    rw [flat_int]
    split_ifs with hi
    · exact ⟨_, _, rfl, nofun, nofun⟩
    · exact ⟨_, _, rfl, nofun, fun h => hi (Tok.int.inj h)⟩
  | unary op t ih =>
    cases op with
    | neg => exact ⟨_, _, flat_neg t, nofun, nofun⟩
    | not => exact ⟨_, _, flat_not t, nofun, nofun⟩
  | infixed l op r ih _ | question t ih | field t name ih | call t args comma ih _
  | ascription t ty ps ih =>
    obtain ⟨tok, ts, h, hne⟩ := ih
    simp_all
  | paren t _ => exact ⟨_, _, flat_paren t, nofun, nofun⟩

theorem length_links_le (t : Expr) : (links t).length < (flat t).length := by
  induction t using Expr.induct with
  | name x => simp [links]
  | int i => rw [flat_int]; split_ifs <;> simp [links]
  | unary op t ih => cases op <;> simp [links]
  | infixed l op r ihl _ | question t ih | field t name ih
  | call t args comma ih _ | ascription t ty ps ih => simp [links]; omega
  | paren t _ => simp [links]

theorem parseType_complete_zero (ty : TypeName) (hd : depth < limits.maxDepth)
    (h : Stops rest .typeName) :
    parseType limits depth (flatType ty 0 ++ rest) = some (0, ty, rest) := by
  have hh {tok : Tok} {link : Link} (hl : ∀ ts, linkOf (tok :: ts) = some link)
      (ht : takes .typeName link = true) : rest.head? ≠ some tok := by
    intro hr
    obtain ⟨ts, rfl⟩ := head?_eq_some_iff.mp hr
    exact absurd (h link (hl ts)) (by simp [ht])
  have hc := hh (fun _ => rfl : ∀ ts, linkOf (.lparen :: ts) = some .call) rfl
  have hf := hh (fun _ => rfl : ∀ ts, linkOf (.dot :: ts) = some .field) rfl
  obtain ⟨module, name⟩ := ty
  cases module with
  | some m => simp [flatType_zero, parseType, parseQualifiedName, hd, hc, hf]
  | none =>
    have hn : parseQualifiedName name rest = (⟨none, name⟩, rest) := by
      unfold parseQualifiedName
      split
      · simp at hf
      · rfl
    simp [flatType_zero, parseType, hn, hd, hc, hf]

theorem parseType_complete (ty : TypeName) (ps : Nat) (hd : depth + ps < limits.maxDepth)
    (h : ps = 0 → Stops rest .typeName) :
    parseType limits depth (flatType ty ps ++ rest) = some (ps, ty, rest) := by
  induction ps generalizing depth rest with
  | zero => exact parseType_complete_zero ty hd (h rfl)
  | succ ps ih =>
    have hi := ih (by omega : depth + 1 + ps < limits.maxDepth) fun _ => stops_rparen rest .typeName
    have hlt : ¬ limits.maxDepth ≤ depth := by omega
    rw [flatType_succ]
    simp [parseType, hlt, hi]

theorem parseLoop_stops (h : Stops rest (.operand minBp)) (fuel : Nat)
    (hh : height t ≤ limits.maxExprOperations) :
    parseLoop limits (fuel + 1) depth minBp t rest = some (t, rest) := by
  unfold parseLoop
  rw [if_neg (by omega)]
  split
  · have hbp : minBp = Infix.pipe.rightBp := by simpa [takes] using h .question rfl
    rw [if_pos hbp]
  · exact if_pos ((not_takes_operand (by nofun)).mp (h .call rfl))
  · rename_i op ts
    exact if_pos ((not_takes_operand (by nofun)).mp (h (.infixed op) rfl))
  · exact if_pos ((not_takes_operand (by nofun)).mp (h .field rfl))
  · exact if_pos ((not_takes_operand (by nofun)).mp (h .ascription rfl))
  · rfl

/-- With enough fuel and within the limits, reading the tokens of the tree is reading on behind the
tree. -/
def RunsOn (limits : Limits) (minBp : Nat) (t : Expr) : Prop :=
  ∀ fuel depth rest, 2 * (flat t).length + 2 ≤ fuel → Fits limits (depth + 1) t →
    (∀ reader ∈ opens t, Stops rest reader) →
      parseExprBp limits fuel depth minBp (flat t ++ rest) =
        parseLoop limits (fuel - 1 - (links t).length) (depth + 1) minBp t rest

/-- A tree that is read on behind is read, if what reads it stops. -/
theorem RunsOn.reads (h : RunsOn limits minBp t) (hf : 2 * (flat t).length + 2 ≤ fuel)
    (ht : Fits limits (depth + 1) t) (hs : Stops rest (.operand minBp))
    (ho : ∀ reader ∈ opens t, Stops rest reader) :
    parseExprBp limits fuel depth minBp (flat t ++ rest) = some (t, rest) := by
  have hln := length_links_le t
  obtain ⟨left, hd⟩ : ∃ left, fuel - 1 - (links t).length = left + 1 :=
    ⟨fuel - 2 - (links t).length, by omega⟩
  rw [h fuel depth rest hf ht ho, hd, parseLoop_stops hs left ht.low]

/-- The arguments of a call are read if each is. -/
theorem parseArgs_complete {comma : Bool} (hc : comma = true → args ≠ [])
    (hag : ∀ arg ∈ args, RunsOn limits 0 arg) (hft : ∀ arg ∈ args, Fits limits (depth + 1) arg)
    (hfl : 2 * (flatArgs args comma).length + 3 ≤ fuel) :
    parseArgs limits fuel depth (flatArgs args comma ++ .rparen :: rest) =
      some (args, comma, rest) := by
  induction args generalizing fuel with
  | nil =>
    obtain ⟨fuel, rfl⟩ : ∃ f, fuel = f + 1 := ⟨fuel - 1, by omega⟩
    cases comma with
    | true => exact absurd rfl (hc rfl)
    | false => simp [parseArgs]
  | cons arg args ih =>
    obtain ⟨fuel, rfl⟩ : ∃ f, fuel = f + 1 := ⟨fuel - 1, by omega⟩
    obtain ⟨tok, ts, hfa, hne, -⟩ := flat_head arg
    have har := hag arg mem_cons_self
    have hat := hft arg mem_cons_self
    -- an argument does not start with the closing parenthesis
    have hnc : ∀ more ts', tok :: (ts ++ more) = .rparen :: ts' → False := by
      intro _ _ heq
      rw [List.cons.injEq] at heq
      exact hne heq.1
    have hone {more rest : List Tok}
        (h : parseExprBp limits fuel depth 0 (flat arg ++ more) = some (arg, .rparen :: rest)) :
        parseArgs limits (fuel + 1) depth (flat arg ++ more) = some ([arg], false, rest) := by
      rw [hfa, cons_append] at h ⊢
      rw [parseArgs, h]
      · rfl
      · exact hnc more
    have hmore {more ts rest : List Tok} {args : List Expr} {comma : Bool}
        (h : parseExprBp limits fuel depth 0 (flat arg ++ more) = some (arg, .comma :: ts))
        (hts : parseArgs limits fuel depth ts = some (args, comma, rest)) :
        parseArgs limits (fuel + 1) depth (flat arg ++ more) =
          some (arg :: args, comma || args.isEmpty, rest) := by
      rw [hfa, cons_append] at h ⊢
      rw [parseArgs, h]
      · simp [hts]
      · exact hnc more
    cases args with
    | nil =>
      rw [flatArgs_singleton] at hfl ⊢
      cases comma with
      | true =>
        have hrd : parseExprBp limits fuel depth 0 (flat arg ++ .comma :: .rparen :: rest) =
            some (arg, .comma :: .rparen :: rest) :=
          har.reads (by simp at hfl; omega) hat (stops_comma _ _) (fun r _ => stops_comma _ r)
        have he : parseArgs limits fuel depth (.rparen :: rest) = some ([], false, rest) := by
          obtain ⟨left, rfl⟩ : ∃ left, fuel = left + 1 := ⟨fuel - 1, by simp at hfl; omega⟩
          simp [parseArgs]
        simpa using hmore hrd he
      | false =>
        have hrd : parseExprBp limits fuel depth 0 (flat arg ++ .rparen :: rest) =
            some (arg, .rparen :: rest) :=
          har.reads (by simp at hfl; omega) hat (stops_rparen _ _) (fun r _ => stops_rparen _ r)
        simpa using hone hrd
    | cons u us =>
      rw [flatArgs_cons] at hfl ⊢
      simp only [length_append, length_cons] at hfl
      have hrd : parseExprBp limits fuel depth 0
          (flat arg ++ .comma :: (flatArgs (u :: us) comma ++ .rparen :: rest)) =
            some (arg, .comma :: (flatArgs (u :: us) comma ++ .rparen :: rest)) :=
        har.reads (by omega) hat (stops_comma _ _) (fun r _ => stops_comma _ r)
      have hrs : parseArgs limits fuel depth (flatArgs (u :: us) comma ++ .rparen :: rest) =
          some (u :: us, comma, rest) :=
        ih (fun _ => cons_ne_nil u us) (fun a ha => hag a (mem_cons_of_mem arg ha))
          (fun a ha => hft a (mem_cons_of_mem arg ha)) (by omega)
      simpa using hmore hrd hrs

/-- A tree with one more link is read on behind if the loop reads the link. -/
theorem RunsOn.link {link : Link} {tail : List Tok} (h : RunsOn limits minBp t)
    (hop : Follows minBp t link) (hf : flat t' = flat t ++ tail)
    (hli : ∀ rest, linkOf (tail ++ rest) = some link) (hln : links t' = link :: links t)
    (hft : ∀ {depth}, Fits limits depth t' → Fits limits depth t)
    (hs : ∀ fuel depth rest, 2 * tail.length ≤ fuel → Fits limits depth t' →
      (∀ reader ∈ opens t', Stops rest reader) → ¬ limits.maxExprOperations < height t →
        parseLoop limits (fuel + 1) depth minBp t (tail ++ rest) =
          parseLoop limits fuel depth minBp t' rest) :
    RunsOn limits minBp t' := by
  intro fuel depth rest hfl ht ho
  rw [hf, length_append] at hfl
  have hle := length_links_le t
  have hlf := h fuel depth (tail ++ rest) (by omega) (hft ht)
    fun reader hrd => stops_of_linkOf (hli rest) (hop.free reader hrd)
  obtain ⟨left, hd⟩ : ∃ left, fuel - 1 - (links t).length = left + 1 :=
    ⟨fuel - 2 - (links t).length, by omega⟩
  have hsm : fuel - 1 - (links t').length = left := by
    rw [hln, length_cons]
    omega
  rw [hf, append_assoc, hlf, hd,
    hs left (depth + 1) rest (by omega) ht ho (Nat.not_lt.mpr (hft ht).low), hsm]

theorem Builds.runsOn (h : Builds minBp t) : RunsOn limits minBp t := by
  induction h with
  | name minBp x =>
    intro fuel depth rest hf ht ho
    obtain ⟨fuel, rfl⟩ : ∃ f, fuel = f + 2 := ⟨fuel - 2, by omega⟩
    simp [parseExprBp, parseUnary, links, ht.not_le]
  | int minBp i =>
    intro fuel depth rest hf ht ho
    obtain ⟨fuel, rfl⟩ : ∃ f, fuel = f + 2 := ⟨fuel - 2, by omega⟩
    rw [flat_int]
    split_ifs with hi
    · simp [parseExprBp, parseUnary, links, hi, ht.not_le]
    · simp [parseExprBp, parseUnary, links, hi, ht.not_le]
  | @unary minBp op t h ih =>
    intro fuel depth rest hf ht ho
    rw [opens, forall_mem_cons] at ho
    obtain ⟨tok, ts, hfl, -, hne⟩ := flat_head t
    obtain ⟨fuel, rfl⟩ : ∃ f, fuel = f + 2 := ⟨fuel - 2, by omega⟩
    have hrd : parseExprBp limits fuel (depth + 1) unaryBp (flat t ++ rest) = some (t, rest) := by
      refine ih.reads ?_ (ht.of_le (by rw [nesting]; omega) (by rw [height]; omega)) ho.1 ho.2
      cases op <;> simp at hf <;> omega
    cases op with
    | neg =>
      -- the operand is not the digits of the smallest integer
      have hh : (flat t ++ rest).head? ≠ some (.int smallest) := by
        rw [hfl]
        simpa using hne
      have hu : parseUnary limits (fuel + 1) (depth + 1) (minus :: (flat t ++ rest)) =
          some (.unary .neg t, rest) := by
        rw [parseUnary, if_neg hh, hrd]
        rfl
      simp [parseExprBp, links, hu, ht.not_le]
    | not => simp [parseExprBp, parseUnary, links, hrd, ht.not_le]
  | @infixed minBp l r op hl hop hr ihl ihr =>
    refine ihl.link hop (flat_infixed l r op) (fun _ => rfl) rfl
      (fun ht => ht.of_le (by rw [nesting]; omega) (by rw [height]; omega))
      fun fuel depth rest hf ht ho hh => ?_
    rw [opens, forall_mem_cons] at ho
    have hrd : parseExprBp limits fuel depth op.rightBp (flat r ++ rest) = some (r, rest) :=
      ihr.reads (by simp at hf; omega) (ht.of_le (by rw [nesting]; omega) (by rw [height]; omega))
        ho.1 ho.2
    have hg : ¬ op.leftBp < minBp := (takes_operand (by nofun)).mp hop.goesOn
    simp [parseLoop, hg, hrd, hh]
  | @question minBp t h hop ih =>
    refine ih.link hop (flat_question t) (fun _ => rfl) rfl
      (fun ht => ht.of_le (by simp [nesting]) (by rw [height]; omega))
      fun fuel depth rest hf ht ho hh => ?_
    have hg : minBp ≠ Infix.pipe.rightBp := by simpa [takes] using hop.goesOn
    simp [parseLoop, hg, hh]
  | @field minBp t name h hop ih =>
    refine ih.link hop (flat_field t name) (fun _ => rfl) rfl
      (fun ht => ht.of_le (by simp [nesting]) (by rw [height]; omega))
      fun fuel depth rest hf ht ho hh => ?_
    have hg : ¬ fieldBp < minBp := (takes_operand (by nofun)).mp hop.goesOn
    simp [parseLoop, hg, hh]
  | @call minBp t args comma h hop ha hc ih ihargs =>
    have hle := le_height_call t args comma
    refine ih.link hop (flat_call t args comma) (fun _ => rfl) rfl
      (fun ht => ht.of_le (by rw [nesting]; omega) (by omega))
      fun fuel depth rest hf ht ho hh => ?_
    have hrd : parseArgs limits fuel depth (flatArgs args comma ++ .rparen :: rest) =
        some (args, comma, rest) := by
      refine parseArgs_complete hc ihargs (fun arg har => ?_) (by simp at hf; omega)
      have hlt := lt_height_of_mem har
      exact ht.of_le (by rw [nesting]; omega) (by omega)
    have hg : ¬ callBp < minBp := (takes_operand (by nofun)).mp hop.goesOn
    simp [parseLoop, hg, hrd, hh]
  | @ascription minBp t ty ps h hop ih =>
    refine ih.link hop (flat_ascription t ty ps) (fun _ => rfl) rfl
      (fun ht => ht.of_le (by rw [nesting]; omega) (by rw [height]; omega))
      fun fuel depth rest hf ht ho hh => ?_
    have hrd : parseType limits depth (flatType ty ps ++ rest) = some (ps, ty, rest) := by
      have hn := ht.nested
      rw [nesting] at hn
      refine parseType_complete ty ps (by omega) fun hz => ?_
      subst hz
      exact ho .typeName (by simp [opens])
    have hg : ¬ asBp < minBp := (takes_operand (by nofun)).mp hop.goesOn
    simp [parseLoop, hg, hrd, hh]
  | @paren minBp t h ih =>
    intro fuel depth rest hf ht ho
    rw [flat_paren] at hf ⊢
    simp only [length_cons, length_append, length_nil] at hf
    obtain ⟨fuel, rfl⟩ : ∃ f, fuel = f + 2 := ⟨fuel - 2, by omega⟩
    have hrd : parseExprBp limits fuel (depth + 1) 0 (flat t ++ .rparen :: rest) =
        some (t, .rparen :: rest) :=
      ih.reads (by omega) (ht.of_le (by rw [nesting]; omega) (by rw [height]; omega))
        (stops_rparen _ _) fun reader _ => stops_rparen _ reader
    simp [parseExprBp, parseUnary, links, hrd, ht.not_le]

/-- Tokens are read as a tree if and only if they are those of one that builds and that the limits
allow. -/
theorem parse_iff : parse limits ts = some t ↔ ts = flat t ∧ Builds 0 t ∧ Fits limits 1 t := by
  constructor
  · intro h
    unfold parse at h
    split at h
    · rename_i t' hre
      obtain rfl : t' = t := by simpa using h
      obtain ⟨hf, hrd⟩ := (sound limits _).1 _ _ _ _ _ hre
      rw [append_nil] at hf
      exact ⟨hf, hrd.builds, hrd.fits⟩
    · cases h
  · rintro ⟨rfl, hb, ht⟩
    have hre : parseExprBp limits (2 * (flat t).length + 3) 0 0 (flat t ++ []) = some (t, []) :=
      hb.runsOn.reads (by omega) ht (.of_nil _) fun reader _ => .of_nil reader
    rw [append_nil] at hre
    rw [parse, hre]

/-- The parser reads the trees in which each operator is read where it stands and that its limits
allow, and nothing else.  No two trees in which each operator is read where it stands have the same
tokens, however deep they are. -/
theorem parse_exact :
    (∀ ts t, parse Operators.limits ts = some t ↔
      ts = flat t ∧ Builds 0 t ∧ Fits Operators.limits 1 t) ∧
    ∀ t t', Builds 0 t → Builds 0 t' → flat t = flat t' → t = t' := by
  refine ⟨fun ts t => parse_iff, fun t t' ht ht' hf => ?_⟩
  -- a parser with limits that both trees are within
  let wide : Limits := ⟨1 + nesting t + nesting t', height t + height t'⟩
  have hr : parse wide (flat t) = some t :=
    parse_iff.mpr ⟨rfl, ht, by simp only [wide]; omega, by simp only [wide]; omega⟩
  have hr' : parse wide (flat t') = some t' :=
    parse_iff.mpr ⟨rfl, ht', by simp only [wide]; omega, by simp only [wide]; omega⟩
  rw [← hf, hr] at hr'
  exact Option.some.inj hr'

end

/-! ### Trees with the same tokens -/

/-- The tree without the parentheses around all of it. -/
def core : Expr → Expr
  | .paren t => core t
  | t => t

/-- The number of parentheses around all of the tree. -/
def depth : Expr → Nat
  | .paren t => depth t + 1
  | _ => 0

theorem flat_core (t : Expr) :
    flat t =
      List.replicate (depth t) .lparen ++ (flat (core t) ++ List.replicate (depth t) .rparen) := by
  induction t using Expr.induct with
  | paren t ih =>
    rw [flat_paren, ih, depth, core, replicate_succ]
    simp [replicate_succ']
  | _ => simp [core, depth]

theorem erase_core (t : Expr) : (core t).erase = t.erase := by
  induction t using Expr.induct with
  | paren t ih => rw [core, ih, Expr.erase]
  | _ => rfl

theorem core_ne_paren (t u : Expr) : core t ≠ .paren u := by
  induction t using Expr.induct with
  | paren t ih => exact ih
  | _ => nofun

theorem iterate_paren_core (t : Expr) : Expr.paren^[depth t] (core t) = t := by
  induction t using Expr.induct with
  | paren t ih => rw [depth, core, iterate_succ_apply', ih]
  | _ => rfl

theorem eq_of_core_eq (hc : core t = core t') (hd : depth t = depth t') : t = t' := by
  rw [← iterate_paren_core t, ← iterate_paren_core t', hc, hd]

/-- Marks that are counted in front of something else. -/
theorem replicate_append_inj {tok a b : Tok} {n m : Nat} (ha : a ≠ tok) (hb : b ≠ tok)
    (h : List.replicate n tok ++ a :: ts = List.replicate m tok ++ b :: us) :
    n = m ∧ a :: ts = b :: us := by
  induction n generalizing m with
  | zero =>
    cases m with
    | zero => exact ⟨rfl, h⟩
    | succ m =>
      exact absurd (List.cons.inj h).1 ha
  | succ n ih =>
    cases m with
    | zero =>
      exact absurd (List.cons.inj h).1.symm hb
    | succ m => grind

/-- Two trees that are the same but for parentheses, each behind opening parentheses and in front of
other tokens, are the same but for the parentheses around all of them, if the tokens are the same.
-/
def SameTokens (t : Expr) : Prop :=
  ∀ (t' : Expr) (k j : Nat) (ts us : List Tok), t.erase = t'.erase →
    List.replicate k .lparen ++ (flat t ++ ts) = List.replicate j .lparen ++ (flat t' ++ us) →
      core t = core t' ∧ k + depth t = j + depth t' ∧
        List.replicate (depth t) .rparen ++ ts = List.replicate (depth t') .rparen ++ us

/-- It is enough to compare with a tree that is in no parentheses. -/
theorem sameTokens_of_core (hc : core t = t) (hd : depth t = 0)
    (h : ∀ (t' : Expr) (k j : Nat) (ts us : List Tok), (∀ u, t' ≠ .paren u) → t.erase = t'.erase →
      List.replicate k .lparen ++ (flat t ++ ts) = List.replicate j .lparen ++ (flat t' ++ us) →
      t = t' ∧ k = j ∧ ts = us) : SameTokens t := by
  intro t' k j ts us he ht
  rw [flat_core t'] at ht
  obtain ⟨heq, hk, hts⟩ := h (core t') k (j + depth t') ts
    (List.replicate (depth t') .rparen ++ us) (core_ne_paren t') (he.trans (erase_core t').symm) (by
      rw [ht, replicate_add]
      simp only [append_assoc])
  rw [hc, hd, hts]
  exact ⟨heq, hk, by simp⟩

theorem SameTokens.eq (h : SameTokens t) (he : t.erase = t'.erase)
    (ht : flat t ++ ts = flat t' ++ us) : t = t' ∧ ts = us := by
  obtain ⟨hc, hd, hrs⟩ := h t' 0 0 ts us he (by simpa using ht)
  have hd : depth t = depth t' := by simpa using hd
  rw [hd] at hrs
  exact ⟨eq_of_core_eq hc hd, append_cancel_left hrs⟩

theorem SameTokens.left {l l' : Expr} (h : SameTokens l) {k j : Nat} {a b : Tok} (ha : a ≠ .rparen)
    (hb : b ≠ .rparen) (he : l.erase = l'.erase)
    (ht : List.replicate k .lparen ++ (flat l ++ a :: ts) =
      List.replicate j .lparen ++ (flat l' ++ b :: us)) : l = l' ∧ k = j ∧ a :: ts = b :: us := by
  obtain ⟨hc, hdp, hrs⟩ := h l' k j _ _ he ht
  obtain ⟨hd, hrs⟩ := replicate_append_inj ha hb hrs
  exact ⟨eq_of_core_eq hc hd, by omega, hrs⟩

theorem eraseAll_eq_nil (h : Expr.eraseAll args = []) : args = [] := by
  cases args with
  | nil => rfl
  | cons a as => simp [Expr.eraseAll] at h

theorem sameTokens_args (har : ∀ arg ∈ args, SameTokens arg) {args' : List Expr}
    {comma comma' : Bool} (he : Expr.eraseAll args = Expr.eraseAll args')
    (ht : flatArgs args comma ++ .rparen :: ts = flatArgs args' comma' ++ .rparen :: us) :
    args = args' ∧ comma = comma' ∧ ts = us := by
  have hem : ∀ {comma comma' : Bool} {ts us : List Tok}, flatArgs [] comma ++ .rparen :: ts =
      flatArgs [] comma' ++ .rparen :: us → comma = comma' ∧ ts = us := by
    simp_all
  induction args generalizing args' with
  | nil =>
    have hn : args' = [] := eraseAll_eq_nil he.symm
    subst hn
    exact ⟨rfl, hem ht⟩
  | cons a as ih =>
    cases args' with
    | nil => simp [Expr.eraseAll] at he
    | cons a' as' =>
      rw [Expr.eraseAll, Expr.eraseAll, List.cons.injEq] at he
      have ha := har a mem_cons_self
      cases as with
      | nil =>
        have hn : as' = [] := eraseAll_eq_nil he.2.symm
        subst hn
        rw [flatArgs_singleton, flatArgs_singleton, append_assoc, append_assoc] at ht
        obtain ⟨rfl, hrs⟩ := ha.eq he.1 ht
        exact ⟨rfl, hem hrs⟩
      | cons b bs =>
        cases as' with
        | nil => simp [Expr.eraseAll] at he
        | cons b' bs' =>
          rw [flatArgs_cons, flatArgs_cons, append_assoc, append_assoc] at ht
          obtain ⟨rfl, hrs⟩ := ha.eq he.1 ht
          grind

theorem flatType_inj {ty : TypeName} {m n : Nat} (h : flatType ty m ++ ts = flatType ty n ++ us) :
    m = n ∧ ts = us := by
  have ho : ∀ k, flatType ty k =
      List.replicate k .lparen ++ (flatType ty 0 ++ List.replicate k .rparen) := by
    simp [flatType, spellType]
  obtain ⟨x, more, hn⟩ : ∃ x more, flatType ty 0 = .ident x :: more := by
    obtain ⟨module, name⟩ := ty
    cases module with
    | none => exact ⟨name, [], flatType_zero _⟩
    | some m => exact ⟨m, _, flatType_zero _⟩
  rw [ho m, ho n, hn] at h
  simp only [append_assoc, cons_append] at h
  obtain ⟨rfl, hrs⟩ := replicate_append_inj (by nofun) (by nofun) h
  simp_all

theorem sameTokens (t : Expr) : SameTokens t := by
  induction t using Expr.induct with
  | paren t ih =>
    intro t' k j ts us he ht
    obtain ⟨hcr, hd, hrs⟩ := ih t' (k + 1) j (.rparen :: ts) us (by simpa [Expr.erase] using he) (by
        rw [← ht, replicate_succ']
        simp)
    rw [core, depth]
    refine ⟨hcr, by omega, ?_⟩
    rw [← hrs, replicate_succ']
    simp
  | name x =>
    refine sameTokens_of_core rfl rfl fun t' k j ts us hne he ht => ?_
    cases t' with
    | name y =>
      obtain rfl : x = y := by simpa [Expr.erase] using he
      obtain ⟨hk, hts⟩ := replicate_append_inj (by nofun) (by nofun) ht
      exact ⟨rfl, hk, (List.cons.inj hts).2⟩
    | _ => simp [Expr.erase] at he hne
  | int i =>
    refine sameTokens_of_core rfl rfl fun t' k j ts us hne he ht => ?_
    cases t' with
    | int i' =>
      obtain rfl : i = i' := by simpa [Expr.erase] using he
      rw [flat_int] at ht
      split_ifs at ht with hi
      · obtain ⟨hk, hts⟩ := replicate_append_inj (by nofun) (by nofun) ht
        exact ⟨rfl, hk, (List.cons.inj (List.cons.inj hts).2).2⟩
      · obtain ⟨hk, hts⟩ := replicate_append_inj (by nofun) (by nofun) ht
        exact ⟨rfl, hk, (List.cons.inj hts).2⟩
    | _ => simp [Expr.erase] at he hne
  | unary op t ih =>
    refine sameTokens_of_core rfl rfl fun t' k j ts us hne he ht => ?_
    cases t' with
    | unary op' t' =>
      obtain ⟨rfl, het⟩ : op = op' ∧ t.erase = t'.erase := by simpa [Expr.erase] using he
      have hc : k = j ∧ flat t ++ ts = flat t' ++ us := by
        cases op with
        | neg | not =>
          obtain ⟨hk, hts⟩ := replicate_append_inj (by nofun) (by nofun) ht
          exact ⟨hk, (List.cons.inj hts).2⟩
      obtain ⟨rfl, hts⟩ := ih.eq het hc.2
      exact ⟨rfl, hc.1, hts⟩
    | _ => simp [Expr.erase] at he hne
  | infixed l op r ihl ihr =>
    refine sameTokens_of_core rfl rfl fun t' k j ts us hne he ht => ?_
    cases t' with
    | infixed l' op' r' =>
      obtain ⟨hel, rfl, her⟩ : l.erase = l'.erase ∧ op = op' ∧ r.erase = r'.erase := by
        simpa [Expr.erase] using he
      rw [flat_infixed, flat_infixed, append_assoc, append_assoc] at ht
      obtain ⟨rfl, hk, hrs⟩ := ihl.left (by nofun) (by nofun) hel ht
      obtain ⟨rfl, hts⟩ := ihr.eq her (List.cons.inj hrs).2
      exact ⟨rfl, hk, hts⟩
    | _ => simp [Expr.erase] at he hne
  | question t ih =>
    refine sameTokens_of_core rfl rfl fun t' k j ts us hne he ht => ?_
    cases t' with
    | question t' =>
      rw [flat_question, flat_question, append_assoc, append_assoc] at ht
      obtain ⟨rfl, hk, hrs⟩ := ih.left (by nofun) (by nofun) (by simpa [Expr.erase] using he) ht
      exact ⟨rfl, hk, (List.cons.inj hrs).2⟩
    | _ => simp [Expr.erase] at he hne
  | field t name ih =>
    refine sameTokens_of_core rfl rfl fun t' k j ts us hne he ht => ?_
    cases t' with
    | field t' name' =>
      obtain ⟨het, rfl⟩ : t.erase = t'.erase ∧ name = name' := by simpa [Expr.erase] using he
      rw [flat_field, flat_field, append_assoc, append_assoc] at ht
      obtain ⟨rfl, hk, hrs⟩ := ih.left (by nofun) (by nofun) het ht
      exact ⟨rfl, hk, (List.cons.inj (List.cons.inj hrs).2).2⟩
    | _ => simp [Expr.erase] at he hne
  | call t args comma ih ihargs =>
    refine sameTokens_of_core rfl rfl fun t' k j ts us hne he ht => ?_
    cases t' with
    | call t' args' comma' =>
      obtain ⟨het, hea⟩ : t.erase = t'.erase ∧ Expr.eraseAll args = Expr.eraseAll args' := by
        simpa [Expr.erase] using he
      rw [flat_call, flat_call, append_assoc, append_assoc] at ht
      obtain ⟨rfl, hk, hrs⟩ := ih.left (by nofun) (by nofun) het ht
      obtain ⟨rfl, rfl, hts⟩ := sameTokens_args ihargs hea (by simpa using hrs)
      exact ⟨rfl, hk, hts⟩
    | _ => simp [Expr.erase] at he hne
  | ascription t ty ps ih =>
    refine sameTokens_of_core rfl rfl fun t' k j ts us hne he ht => ?_
    cases t' with
    | ascription t' ty' ps' =>
      obtain ⟨het, rfl⟩ : t.erase = t'.erase ∧ ty = ty' := by simpa [Expr.erase] using he
      rw [flat_ascription, flat_ascription, append_assoc, append_assoc] at ht
      obtain ⟨rfl, hk, hrs⟩ := ih.left (by nofun) (by nofun) het ht
      obtain ⟨rfl, hts⟩ := flatType_inj (List.cons.inj hrs).2
      exact ⟨rfl, hk, hts⟩
    | _ => simp [Expr.erase] at he hne

/-- Trees that are the same but for parentheses have different tokens if they differ. -/
theorem eq_of_flat_eq (he : t.erase = t'.erase) (hf : flat t = flat t') : t = t' :=
  ((sameTokens t).eq he (congrArg (· ++ []) hf)).1

end Silt.Format.Operators
