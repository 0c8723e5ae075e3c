import Silt.Format.Parens

/-!
# Which dropped parentheses change the tree

What is printed of an expression is read as the same tree if and only if the printed tree is the one
that its tokens are read as (`Builds`), no two minus signs stand together in its text, and it is
within the limits of the parser (`Fits`).  The first two are settled node by node, from what the
operands of a node end and start with.

## Main definitions

* `glues` : two minus signs stand together in a text.
* `ReadsBack` : the text of a tree is read as the tree.

## Main results

* `startsMinus_bareExpr` : the left end of the printed text.
* `readsBack_bareExpr_iff` : the printed tree is read as itself if and only if `keepsTree`.
* `readPrinted_iff` : the printed text is read as the source's tree if and only if `keepsTree` and
  the printed tree `Fits`.
-/

namespace Silt.Format.Operators

open List

variable {t l : Expr} {ps : List Piece} {args : List Expr}

/-! ### Two minus signs together -/

/-- Whether two minus signs stand together in the text. -/
def glues : List Piece → Bool
  | .tok t :: .tok t' :: ps => (decide (t = minus) && decide (t' = minus)) || glues (.tok t' :: ps)
  | _ :: ps => glues ps
  | [] => false

theorem glues_tok {t : Tok} (h : ∀ t' ps', ps = .tok t' :: ps' → False) :
    glues (.tok t :: ps) = glues ps := by
  cases ps with
  | nil => rfl
  | cons p ps =>
    cases p with
    | tok t' => exact (h t' ps rfl).elim
    | space => rfl

theorem lex_eq_toks (h : glues ps = false) : lex ps = toks ps := by
  induction ps using lex.induct with
  | case1 t t' ps hm =>
    simp [glues, hm] at h
  | case2 t t' ps hm ih =>
    rw [glues, Bool.or_eq_false_iff] at h
    rw [lex, if_neg hm, ih h.2]
    rfl
  | case3 t ps hps ih =>
    rw [glues_tok hps] at h
    rw [lex, ih h]
    · rfl
    · exact hps
  | case4 ps ih => exact ih h
  | case5 => rfl

/-- A comment loses minus signs. -/
theorem count_lex_lt (h : glues ps = true) : (lex ps).count minus < (toks ps).count minus := by
  induction ps using lex.induct with
  | case1 t t' ps hm =>
    obtain ⟨rfl, rfl⟩ := hm
    simp [lex]
  | case2 t t' ps hm ih =>
    have hr : glues (.tok t' :: ps) = true := by
      rw [glues, Bool.or_eq_true] at h
      grind
    have hlt := ih hr
    rw [lex, if_neg hm, toks_tok, count_cons, count_cons]
    omega
  | case3 t ps hps ih =>
    rw [glues_tok hps] at h
    have hlt := ih h
    rw [lex, toks_tok, count_cons, count_cons]
    · omega
    · exact hps
  | case4 ps ih => exact ih h
  | case5 => cases h

/-- Texts of which the first does not end in a minus sign. -/
theorem glues_append {qs : List Piece} (h : ps.getLast? ≠ some (.tok minus)) :
    glues (ps ++ qs) = (glues ps || glues qs) := by
  induction ps with
  | nil => rfl
  | cons p ps ih =>
    cases ps with
    | nil =>
      cases p with
      | space => rfl
      | tok t =>
        have hne : t ≠ minus := by simpa using h
        cases qs with
        | nil => rfl
        | cons q qs =>
          cases q with
          | space => rfl
          | tok t' => simp [glues, hne]
    | cons p' ps =>
      have hr := ih (by simpa using h)
      cases p with
      | space => exact hr
      | tok t =>
        cases p' with
        | space => exact hr
        | tok t' =>
          rw [cons_append, cons_append, glues, glues, Bool.or_assoc]
          exact congrArg _ hr

/-- The text ends in a token, not a minus sign. -/
def EndsInTok (ps : List Piece) : Prop :=
  ∃ qs t, ps = qs ++ [.tok t] ∧ t ≠ minus

theorem EndsInTok.append (h : EndsInTok ps) (qs : List Piece) : EndsInTok (qs ++ ps) := by
  obtain ⟨rs, t, rfl, ht⟩ := h
  exact ⟨qs ++ rs, t, (append_assoc ..).symm, ht⟩

theorem EndsInTok.getLast? (h : EndsInTok ps) : ps.getLast? ≠ some (.tok minus) := by
  obtain ⟨qs, t, rfl, ht⟩ := h
  simpa using ht

theorem endsInTok_tok {t : Tok} (h : t ≠ minus) : EndsInTok [.tok t] := ⟨[], t, rfl, h⟩

theorem endsInTok_spellType (ty : TypeName) (pr : Nat) : EndsInTok (spellType ty pr) := by
  cases pr with
  | zero =>
    obtain ⟨module, name⟩ := ty
    cases module with
    | none => exact endsInTok_tok (by rintro ⟨⟩)
    | some m => exact (endsInTok_tok (by rintro ⟨⟩)).append [.tok (.ident m), .tok .dot]
  | succ pr =>
    rw [spellType, replicate_succ' (n := pr) (a := Piece.tok .rparen)]
    exact ((endsInTok_tok (by rintro ⟨⟩)).append _).append _

/-- The text of an expression ends in a token, not a minus sign. -/
theorem endsInTok_spell (t : Expr) : EndsInTok (spell t) := by
  induction t using Expr.induct with
  | name x => exact endsInTok_tok (by rintro ⟨⟩)
  | int i =>
    rw [spell]
    split_ifs
    · exact (endsInTok_tok (by rintro ⟨⟩)).append [.tok minus]
    · exact endsInTok_tok (by rintro ⟨⟩)
  | unary op t ih => exact ih.append _
  | infixed l op r _ ihr => exact ihr.append _
  | question t _ => exact (endsInTok_tok (by rintro ⟨⟩)).append _
  | field t name _ =>
    have hn : EndsInTok [.tok (.ident name)] := endsInTok_tok (by rintro ⟨⟩)
    exact (hn.append [.tok .dot]).append (spell t)
  | call t args comma _ _ => exact (endsInTok_tok (by rintro ⟨⟩)).append _
  | ascription t ty pr _ => exact (endsInTok_spellType ty pr).append _
  | paren t _ => exact (endsInTok_tok (by rintro ⟨⟩)).append _

theorem glues_spell_append (t : Expr) (qs : List Piece) :
    glues (spell t ++ qs) = (glues (spell t) || glues qs) :=
  glues_append (endsInTok_spell t).getLast?

/-- Whether a text starts with a minus sign. -/
def startsMinus (ps : List Piece) : Bool :=
  decide (ps.head? = some (.tok minus))

theorem glues_minus (ps : List Piece) :
    glues (.tok minus :: ps) = (startsMinus ps || glues ps) := by
  cases ps with
  | nil => rfl
  | cons p ps =>
    cases p with
    | space => rfl
    | tok t => simp [glues, startsMinus]

theorem glues_ne_minus {t : Tok} (h : t ≠ minus) (ps : List Piece) :
    glues (.tok t :: ps) = glues ps := by
  have ha := @glues_append [.tok t] ps (by simpa using h)
  exact ha

@[simp] theorem glues_neg (t : Expr) :
    glues (spell (.unary .neg t)) = (startsMinus (spell t) || glues (spell t)) := by
  exact glues_minus (spell t)

@[simp] theorem glues_not (t : Expr) : glues (spell (.unary .not t)) = glues (spell t) := by
  exact glues_ne_minus (by nofun) _

@[simp] theorem glues_infixed (l r : Expr) (op : Infix) :
    glues (spell (.infixed l op r)) = (glues (spell l) || glues (spell r)) := by
  rw [spell, append_assoc, glues_spell_append]
  congr 1
  cases op with
  | range => exact glues_ne_minus (by rintro ⟨⟩) _
  | binary op =>
    rw [spellInfix]
    · exact glues_tok (by rintro _ _ ⟨⟩)
    · rintro ⟨⟩
  | pipe => exact glues_ne_minus (by rintro ⟨⟩) _

@[simp] theorem glues_question (t : Expr) : glues (spell (.question t)) = glues (spell t) := by
  rw [spell, glues_spell_append]
  exact Bool.or_false _

@[simp] theorem glues_field (t : Expr) (name : String) :
    glues (spell (.field t name)) = glues (spell t) := by
  rw [spell, glues_spell_append]
  have hn : glues [.tok .dot, .tok (.ident name)] = false := by
    rfl
  rw [hn, Bool.or_false]

theorem glues_spellType (ty : TypeName) (pr : Nat) : glues (spellType ty pr) = false := by
  have hr : ∀ (n : Nat) (t : Tok), t ≠ minus → ∀ ps,
      glues (List.replicate n (.tok t) ++ ps) = glues ps := by
    intro n t ht ps
    induction n with
    | zero => rfl
    | succ n ih => rw [replicate_succ, cons_append, glues_ne_minus ht, ih]
  have hc : glues (List.replicate pr (.tok .rparen)) = false := by
    have ha := hr pr .rparen (by rintro ⟨⟩) []
    rw [append_nil] at ha
    exact ha
  rw [spellType, append_assoc, hr _ _ (by rintro ⟨⟩)]
  obtain ⟨module, name⟩ := ty
  cases module with
  | none =>
    change glues (.tok (.ident name) :: _) = false
    rw [glues_ne_minus (by rintro ⟨⟩)]
    exact hc
  | some m =>
    change glues (.tok (.ident m) :: .tok .dot :: .tok (.ident name) :: _) = false
    rw [glues_ne_minus (by rintro ⟨⟩), glues_ne_minus (by rintro ⟨⟩), glues_ne_minus (by rintro ⟨⟩)]
    exact hc

@[simp] theorem glues_ascription (t : Expr) (ty : TypeName) (pr : Nat) :
    glues (spell (.ascription t ty pr)) = glues (spell t) := by
  rw [spell, append_assoc, glues_spell_append]
  have ht : glues ([.space, .tok .asKeyword, .space] ++ spellType ty pr) = false :=
    glues_spellType ty pr
  rw [ht, Bool.or_false]

@[simp] theorem glues_paren (t : Expr) : glues (spell (.paren t)) = glues (spell t) := by
  rw [spell, append_assoc, singleton_append, glues_ne_minus (by rintro ⟨⟩), glues_spell_append]
  exact Bool.or_false _

theorem glues_spellArgs (args : List Expr) :
    glues (spellArgs args false ++ [.tok .rparen]) = args.any fun arg => glues (spell arg) := by
  induction args with
  | nil => rfl
  | cons a as ih =>
    rw [spellArgs, append_assoc, append_assoc, glues_spell_append, any_cons, ← ih]
    cases as with
    | nil | cons b bs => rfl

@[simp] theorem glues_call (t : Expr) (args : List Expr) :
    glues (spell (.call t args false)) =
      (glues (spell t) || args.any fun arg => glues (spell arg)) := by
  rw [spell, append_assoc, append_assoc, glues_spell_append, singleton_append,
    glues_ne_minus (by rintro ⟨⟩), glues_spellArgs]

/-! ### The text that is printed -/

theorem startsMinus_append (h : ps ≠ []) (qs : List Piece) :
    startsMinus (ps ++ qs) = startsMinus ps := by
  rw [startsMinus, startsMinus, head?_append_of_ne_nil _ h]

theorem spell_ne_nil (t : Expr) : spell t ≠ [] := by
  obtain ⟨qs, tok, h, -⟩ := endsInTok_spell t
  rw [h]
  exact append_ne_nil_of_right_ne_nil _ (cons_ne_nil _ _)

theorem LinkNode.startsMinus_printed {link : Link} (h : LinkNode t l link) (ctx : Ctx) :
    startsMinus (spell (bareExpr ctx t)) =
      (!link.keeps l (ctx.left link.bp) &&
        startsMinus (spell (bareExpr (ctx.left link.bp) l))) := by
  have hp : ∀ (kept : Bool) (inside outside : Expr) (qs : List Piece), startsMinus
      (spell (place kept inside outside) ++ qs) = (!kept && startsMinus (spell outside)) := by
    intro kept inside outside qs
    rw [startsMinus_append (spell_ne_nil _)]
    cases kept <;> rfl
  cases h with
  | infixed l op r =>
    rw [bareExpr, spell, append_assoc]
    exact hp _ _ _ _
  | question hpp =>
    rw [bareExpr, hpp]
    exact hp _ _ _ _
  | field t name => exact hp _ _ _ _
  | call t args comma =>
    rw [bareExpr, spell, append_assoc, append_assoc]
    exact hp _ _ _ _
  | ascription t ty pr =>
    rw [bareExpr, spell, append_assoc]
    exact hp _ _ _ _

theorem bareSpine_ne_nil (ctx : Ctx) (t : Expr) : bareSpine ctx t ≠ [] := by
  induction t using Expr.induct generalizing ctx with
  | paren t ih => exact ih ctx
  | _ => nofun

theorem leadsWithMinus_cons (t : Expr) {parts : List Expr} (h : parts ≠ []) :
    leadsWithMinus (t :: parts) = leadsWithMinus parts := by
  rw [leadsWithMinus, leadsWithMinus, getLast?_cons, getLast?_eq_some_getLast h]
  rfl

/-- What is printed starts with a minus sign if its spine ends in one. -/
theorem startsMinus_bareExpr (ctx : Ctx) (t : Expr) :
    startsMinus (spell (bareExpr ctx t)) = leadsWithMinus (bareSpine ctx t) := by
  induction t using Expr.leftInduct generalizing ctx with
  | paren t ih => exact ih ctx
  | leaf t hl =>
    cases hl with
    | name x => rfl
    | int i =>
      rw [bareExpr, spell]
      by_cases hi : i = smallest
      · rw [if_pos hi, hi]
        rfl
      · rw [if_neg hi]
        exact (decide_eq_false hi).symm
    | unary op t =>
      cases op with
      | neg | not =>
        rw [bareExpr]
        split_ifs <;> rfl
  | link t l link hn ih =>
    rw [hn.startsMinus_printed, hn.bareSpine_eq, ih]
    cases hk : link.keeps l (ctx.left link.bp) with
    | true =>
      cases hn <;> rfl
    | false =>
      exact (leadsWithMinus_cons t (bareSpine_ne_nil _ l)).symm
  | piped u hp ih =>
    rw [bareExpr, bareSpine_question hp, if_pos hp, spell, startsMinus_append (spell_ne_nil _)]
    cases hk : keeps u (ctx.beforeQuestion u) with
    | true => rfl
    | false =>
      exact (ih _).trans (leadsWithMinus_cons _ (bareSpine_ne_nil _ u)).symm

theorem startsMinus_printed (ctx : Ctx) (t : Expr) :
    startsMinus (spell (printed ctx t)) = leadsWithMinus (spine ctx t) := by
  rw [printed, spine]
  cases keeps t ctx with
  | true => rfl
  | false => exact startsMinus_bareExpr ctx t

/-! ### Trees that are read as themselves -/

/-- The text of the tree is read as the tree. -/
def ReadsBack (t : Expr) : Prop :=
  Builds 0 t ∧ glues (spell t) = false

/-- A reader that reads from `m` on goes to the end of the tree. -/
def ReadFrom (m : Nat) (t : Expr) : Prop :=
  ∀ link ∈ links t, takes (.operand m) link = true

theorem readsBack_paren : ReadsBack (.paren t) ↔ ReadsBack t := by
  rw [ReadsBack, builds_paren, glues_paren]
  exact Iff.rfl

theorem readsBack_infixed {r : Expr} {op : Infix} :
    ReadsBack (.infixed l op r) ↔
      ReadsBack l ∧ Free l (.infixed op) ∧ ReadsBack r ∧ ReadFrom op.rightBp r := by
  rw [ReadsBack, builds_infixed, follows_iff, @builds_iff_links r op.rightBp, glues_infixed,
    Bool.or_eq_false_iff]
  constructor
  · rintro ⟨⟨hl, ⟨-, hf⟩, hr, hln⟩, hgl, hgr⟩
    exact ⟨⟨hl, hgl⟩, hf, ⟨hr, hgr⟩, hln⟩
  · rintro ⟨⟨hl, hgl⟩, hf, ⟨hr, hgr⟩, hln⟩
    exact ⟨⟨hl, ⟨takes_zero _, hf⟩, hr, hln⟩, hgl, hgr⟩

theorem readsBack_unary {op : UnaryOp} :
    ReadsBack (.unary op t) ↔
      ReadsBack t ∧ ReadFrom unaryBp t ∧ (op = .neg → startsMinus (spell t) = false) := by
  rw [ReadsBack, builds_unary, @builds_iff_links t unaryBp]
  cases op with
  | neg =>
    rw [glues_neg, Bool.or_eq_false_iff]
    constructor
    · rintro ⟨⟨ht, hl⟩, hs, hg⟩
      exact ⟨⟨ht, hg⟩, hl, fun _ => hs⟩
    · rintro ⟨⟨ht, hg⟩, hl, hs⟩
      exact ⟨⟨ht, hl⟩, hs rfl, hg⟩
  | not =>
    rw [glues_not]
    constructor
    · rintro ⟨⟨ht, hl⟩, hg⟩
      exact ⟨⟨ht, hg⟩, hl, nofun⟩
    · rintro ⟨⟨ht, hg⟩, hl, -⟩
      exact ⟨⟨ht, hl⟩, hg⟩

theorem readsBack_question : ReadsBack (.question t) ↔ ReadsBack t ∧ Free t .question := by
  rw [ReadsBack, builds_question, follows_iff, glues_question, and_iff_right (takes_zero _)]
  exact and_right_comm

theorem readsBack_field {name : String} :
    ReadsBack (.field t name) ↔ ReadsBack t ∧ Free t .field := by
  rw [ReadsBack, builds_field, follows_iff, glues_field, and_iff_right (takes_zero _)]
  exact and_right_comm

theorem readsBack_ascription {ty : TypeName} {pr : Nat} :
    ReadsBack (.ascription t ty pr) ↔ ReadsBack t ∧ Free t .ascription := by
  rw [ReadsBack, builds_ascription, follows_iff, glues_ascription, and_iff_right (takes_zero _)]
  exact and_right_comm

theorem readsBack_call :
    ReadsBack (.call t args false) ↔ ReadsBack t ∧ Free t .call ∧ ∀ arg ∈ args, ReadsBack arg := by
  rw [ReadsBack, builds_call, follows_iff, glues_call, Bool.or_eq_false_iff, any_eq_false]
  constructor
  · rintro ⟨⟨ht, ⟨-, hf⟩, ha, -⟩, hgl, hg⟩
    exact ⟨⟨ht, hgl⟩, hf, fun arg har => ⟨ha arg har, by simpa using hg arg har⟩⟩
  · rintro ⟨⟨ht, hgl⟩, hf, ha⟩
    refine ⟨⟨ht, ⟨takes_zero _, hf⟩, fun arg har => (ha arg har).1, nofun⟩, hgl, ?_⟩
    intro arg har
    simp [(ha arg har).2]

/-! ### The printed tree -/

theorem rightAt_minBp (ctx : Ctx) (op : Infix) : (ctx.rightAt op).minBp = op.rightBp := by
  cases op with
  | pipe =>
    rw [Ctx.rightAt]
    split_ifs <;> rfl
  | _ => rfl

theorem rightAt_stage (ctx : Ctx) (op : Infix)
    (h : (ctx.rightAt op).minBp = Infix.pipe.rightBp) : (ctx.rightAt op).stage = true := by
  rw [rightAt_minBp] at h
  rw [rightBp_eq_pipe h, Ctx.rightAt]
  split_ifs <;> rfl

/-- Of an operand, what is printed in the parentheses or without them is read as itself. -/
theorem readsBack_place (ih : ∀ ctx, ReadsBack (bareExpr ctx t) ↔ keepsTree ctx t = true)
    (kept : Bool) (ctx : Ctx) :
    ReadsBack (place kept (bareExpr .top t) (bareExpr ctx t)) ↔
      keepsTree (ctx.inside kept) t = true := by
  cases kept with
  | true => exact readsBack_paren.trans (ih .top)
  | false => exact ih ctx

/-- The operand in front of a link, as it is printed. -/
theorem free_printed {link : Link} (h : LinkNode t l link) (hb : Builds 0 t) (ctx : Ctx) :
    Free (place (link.keeps l (ctx.left link.bp)) (bareExpr .top l)
      (bareExpr (ctx.left link.bp) l)) link := by
  obtain ⟨hl, hf⟩ := h.builds hb
  exact free_place fun hk => free_bareExpr hl hk hf h.not_pipe

theorem mem_bareAll {p : Expr} : p ∈ bareAll args ↔ ∃ t ∈ args, p = bareExpr .top t := by
  induction args with
  | nil => simp [bareAll]
  | cons t ts ih =>
    rw [bareAll, keeps_top, mem_cons, ih]
    simp [place]

theorem keepsAll_iff : keepsAll args = true ↔ ∀ t ∈ args, keepsTree .top t = true := by
  induction args with
  | nil => simp [keepsAll]
  | cons t ts ih => rw [keepsAll, Bool.and_eq_true, ih, forall_mem_cons]

/-- What is printed is read as itself if and only if none of the parentheses that are dropped
change the tree. -/
theorem readsBack_bareExpr_iff (hb : Builds 0 t) (ctx : Ctx) :
    ReadsBack (bareExpr ctx t) ↔ keepsTree ctx t = true := by
  induction t using Expr.induct generalizing ctx with
  | name x => exact ⟨fun _ => rfl, fun _ => ⟨.name 0 x, rfl⟩⟩
  | int i =>
    refine ⟨fun _ => rfl, fun _ => ⟨.int 0 i, ?_⟩⟩
    rw [bareExpr, spell]
    split_ifs <;> rfl
  | unary op t ih =>
    have ht := builds_unary.mp hb
    have ih := ih (builds_iff_links.mp ht).1
    rw [bareExpr, keepsTree]
    by_cases hd : doubled op t = true
    · rw [if_pos hd, if_pos hd, readsBack_unary, readsBack_paren, ih]
      exact and_iff_left ⟨by rintro _ ⟨⟩, fun _ => rfl⟩
    · have hln := @links_operand_iff t (.right unaryBp) le_rfl (by decide) ht
      rw [if_neg hd, if_neg hd, readsBack_unary, readsBack_place ih, Bool.and_eq_true,
        Bool.and_eq_true, and_assoc]
      refine and_congr_right fun _ => and_congr ?_ ?_
      · rw [Bool.not_eq_true']
        exact hln
      · change (_ → startsMinus (spell (printed _ t)) = false) ↔ _
        rw [startsMinus_printed]
        simp [imp_iff_not_or]
  | infixed l op r ihl ihr =>
    obtain ⟨hl, -, hr⟩ := builds_infixed.mp hb
    have hln := @links_operand_iff r (ctx.rightAt op) (by rw [rightAt_minBp]; exact rightBp_le op)
      (rightAt_stage ctx op) (by rw [rightAt_minBp]; exact hr)
    rw [rightAt_minBp] at hln
    rw [bareExpr, keepsTree, readsBack_infixed, readsBack_place (ihl hl),
      readsBack_place (ihr (builds_iff_links.mp hr).1), Bool.and_eq_true, Bool.and_eq_true,
      and_assoc, Bool.not_eq_true', ← hln]
    exact and_congr_right fun _ => and_iff_right (free_printed (.infixed l op r) hb ctx)
  | question t ih =>
    obtain ⟨ht, hf⟩ := builds_question.mp hb
    rw [bareExpr, keepsTree]
    cases hpp : t.isPipe with
    | true =>
      obtain ⟨stage, hs⟩ := Option.isSome_iff_exists.mp hpp
      rw [if_pos rfl, if_pos rfl, readsBack_question, readsBack_place (ih ht),
        free_pipeline_iff hs ht hf.free, Bool.and_eq_true, Bool.not_eq_true']
    | false =>
      rw [if_neg (by decide), if_neg (by decide), readsBack_question, readsBack_place (ih ht)]
      exact and_iff_left (free_printed (.question hpp) hb ctx)
  | field t name ih =>
    rw [bareExpr, keepsTree, readsBack_field, readsBack_place (ih (builds_field.mp hb).1)]
    exact and_iff_left (free_printed (.field t name) hb ctx)
  | call t args comma ih ihargs =>
    obtain ⟨ht, -, ha, -⟩ := builds_call.mp hb
    rw [bareExpr, keepsTree, readsBack_call, readsBack_place (ih ht), Bool.and_eq_true,
      keepsAll_iff]
    refine and_congr_right fun _ => Iff.trans
      (and_iff_right (free_printed (.call t args comma) hb ctx)) ?_
    constructor
    · intro h arg har
      exact (ihargs arg har (ha arg har) .top).mp (h _ (mem_bareAll.mpr ⟨arg, har, rfl⟩))
    · intro h p hp
      obtain ⟨arg, har, rfl⟩ := mem_bareAll.mp hp
      exact (ihargs arg har (ha arg har) .top).mpr (h arg har)
  | ascription t ty pr ih =>
    rw [bareExpr, keepsTree, readsBack_ascription, readsBack_place (ih (builds_ascription.mp hb).1)]
    exact and_iff_left (free_printed (.ascription t ty pr) hb ctx)
  | paren t ih =>
    exact ih (builds_paren.mp hb) ctx

/-! ### The tree that the printed text is read as -/

theorem erase_place {kept : Bool} {inside outside : Expr} (hi : inside.erase = t)
    (ho : outside.erase = t) : (place kept inside outside).erase = t := by
  cases kept with
  | true => exact hi
  | false => exact ho

theorem erase_bareExpr (t : Expr) (ctx : Ctx) : (bareExpr ctx t).erase = t.erase := by
  induction t using Expr.induct generalizing ctx with
  | name x | int i => rfl
  | unary op t ih =>
    rw [bareExpr]
    by_cases hd : doubled op t = true
    · rw [if_pos hd]
      exact congrArg (Expr.unary op) (ih _)
    · rw [if_neg hd, Expr.erase, erase_place (ih _) (ih _), Expr.erase]
  | infixed l op r ihl ihr =>
    rw [bareExpr, Expr.erase, erase_place (ihl _) (ihl _), erase_place (ihr _) (ihr _), Expr.erase]
  | question t ih =>
    rw [bareExpr]
    split_ifs
    · rw [Expr.erase, erase_place (ih _) (ih _), Expr.erase]
    · rw [Expr.erase, erase_place (ih _) (ih _), Expr.erase]
  | field t name ih => rw [bareExpr, Expr.erase, erase_place (ih _) (ih _), Expr.erase]
  | call t args comma ih ihargs =>
    have har : Expr.eraseAll (bareAll args) = Expr.eraseAll args := by
      induction args with
      | nil => rfl
      | cons a as ih =>
        obtain ⟨ha, has⟩ := forall_mem_cons.mp ihargs
        rw [bareAll, Expr.eraseAll, erase_place (ha _) (ha _), ih has, Expr.eraseAll]
    rw [bareExpr, Expr.erase, erase_place (ih _) (ih _), har, Expr.erase]
  | ascription t ty pr ih => rw [bareExpr, Expr.erase, erase_place (ih _) (ih _), Expr.erase]
  | paren t ih => exact ih ctx

theorem count_flatType (ty : TypeName) (pr : Nat) : (flatType ty pr).count minus = 0 := by
  induction pr with
  | zero =>
    obtain ⟨module, name⟩ := ty
    cases module <;> rfl
  | succ n ih =>
    rw [flatType_succ, count_cons_of_ne (by nofun), count_append, ih]
    rfl

theorem count_flatArgs (comma : Bool)
    (h : ∀ arg ∈ args, (flat arg).count minus = (flat arg.erase).count minus) :
    (flatArgs args comma).count minus = (flatArgs (Expr.eraseAll args) false).count minus := by
  have hn : (flatArgs [] comma).count minus = 0 := by cases comma <;> rfl
  induction args with
  | nil => exact hn
  | cons a as ih =>
    obtain ⟨ha, has⟩ := forall_mem_cons.mp h
    cases as with
    | nil =>
      rw [flatArgs_singleton, count_append, ha, hn, Expr.eraseAll, Expr.eraseAll,
        flatArgs_singleton, count_append]
      rfl
    | cons b bs =>
      have ih := ih has
      rw [Expr.eraseAll] at ih
      rw [flatArgs_cons, count_append, count_cons_of_ne (by rintro ⟨⟩), ha, ih, Expr.eraseAll,
        Expr.eraseAll, flatArgs_cons, count_append, count_cons_of_ne (by rintro ⟨⟩)]

theorem count_flat_erase (t : Expr) : (flat t).count minus = (flat t.erase).count minus := by
  induction t using Expr.induct with
  | name x | int i => rfl
  | unary op t ih => cases op <;> simp [Expr.erase, ih]
  | infixed l op r ihl ihr => simp [Expr.erase, count_append, count_cons, ihl, ihr]
  | question t ih | field t name ih => simp [Expr.erase, count_append, ih]
  | call t args comma ih ihargs =>
    simp [Expr.erase, count_append, ih, count_flatArgs comma ihargs]
  | ascription t ty pr ih => simp [Expr.erase, count_append, ih, count_flatType]
  | paren t ih => simp [Expr.erase, count_append, ih]

/-- The text of a tree is read as that tree but for parentheses if and only if it is read as the
tree itself. -/
theorem parse_lex_iff (t : Expr) :
    (parse limits (lex (spell t))).map Expr.erase = some t.erase ↔
      ReadsBack t ∧ Fits limits 1 t := by
  rw [Option.map_eq_some_iff]
  constructor
  · rintro ⟨t', hr, he⟩
    obtain ⟨hl, hb, hf⟩ := parse_iff.mp hr
    have hg : glues (spell t) = false := by
      -- a comment would lose a minus sign that the tree has
      by_contra hg
      have hlt := count_lex_lt (by simpa using hg)
      rw [hl, count_flat_erase t', he, ← count_flat_erase t] at hlt
      exact lt_irrefl _ hlt
    rw [lex_eq_toks hg] at hl
    obtain rfl := eq_of_flat_eq he hl.symm
    exact ⟨⟨hb, hg⟩, hf⟩
  · rintro ⟨⟨hb, hg⟩, hf⟩
    refine ⟨t, parse_iff.mpr ⟨?_, hb, hf⟩, rfl⟩
    exact lex_eq_toks hg

/-- `-(a |> b?.f)`, printed as `-a |> b?.f`. -/
def minusPipeline : Source where
  tokens := [minus, .lparen, .ident "a", .infixed .pipe, .ident "b", .question, .dot, .ident "f",
    .rparen]
  tree := .unary .neg
    (.paren (.field (.question (.infixed (.name "a") .pipe (.name "b"))) "f"))
  read := rfl

end Silt.Format.Operators
