import Mathlib.Order.Nat
import Silt.Format.Pratt

/-!
# The parentheses that are dropped

The text that the formatter prints is that of a tree, `printed`, which differs from the source's in
its parentheses only.  `keepsTree` says on the source where the text is read as another tree.

* An operand on the right of `|>`, of `..`, of an arithmetic operator or of a unary operator is
  printed without parentheses, and so are its leftmost operands down to a `?` on a pipeline.  The
  formatter takes a `?` on a pipeline for something that has parentheses on the left of a tighter
  operator; where the source has none there, the pipeline is split.
* A pipeline in parentheses in front of a `?` loses them where its last stage has none and is open
  on its right, but has a `?` in parentheses on its left.  The formatter takes the stage for one
  that has parentheses.
* A minus sign stands in front of an operand that starts with the smallest integer, and the two
  start a comment.

## Main definitions

* `spine` : the parts of an expression that are printed without parentheses, down to its leftmost
  operand.
* `keepsTree` : none of the above is in the expression.

## Main results

* `free_bareExpr` : the operator behind an operand is not taken by what is printed of it.
* `free_pipeline_iff` : a `?` behind a pipeline is not, unless the pipeline loses its stage.
* `links_operand_iff` : a right operand is read to its end unless it leads with a pipeline.
-/

namespace Silt.Format.Operators

open List

variable {t l stage u : Expr} {link : Link} {m : Nat} {ctx : Ctx} {reader : Reader}

/-! ### The left end of what is printed -/

/-- The expression, printed without parentheses at `ctx`, and its leftmost operands as far as they
are printed without parentheses, too. -/
def bareSpine : Ctx → Expr → List Expr
  | ctx, .paren t => bareSpine ctx t
  | ctx, .infixed l op r =>
    .infixed l op r ::
      if keeps l (ctx.left op.leftBp) then [] else bareSpine (ctx.left op.leftBp) l
  | ctx, .question t =>
    .question t ::
      if t.isPipe then
        if keeps t (ctx.beforeQuestion t) then [] else bareSpine (ctx.beforeQuestion t) t
      else if keepsHead t (ctx.left callBp) then [] else bareSpine (ctx.left callBp) t
  | ctx, .field t name =>
    .field t name :: if keepsHead t (ctx.left fieldBp) then [] else bareSpine (ctx.left fieldBp) t
  | ctx, .call t args comma =>
    .call t args comma ::
      if keepsHead t (ctx.left callBp) then [] else bareSpine (ctx.left callBp) t
  | ctx, .ascription t ty parens =>
    .ascription t ty parens :: if keeps t (ctx.left asBp) then [] else bareSpine (ctx.left asBp) t
  | _, t => [t]

/-- As `bareSpine`, and nothing if the expression is printed in parentheses. -/
def spine (ctx : Ctx) (t : Expr) : List Expr :=
  if keeps t ctx then [] else bareSpine ctx t

/-- Whether the spine of an operand that is read from `minBp` on reaches a `?` on a pipeline that
ends the operand: `?` ends a stage, and a pipeline without parentheses ends an operand of what binds
tighter. -/
def leadsWithPipe (minBp : Nat) (spine : List Expr) : Bool :=
  decide (Infix.pipe.leftBp < minBp) && spine.any fun part =>
    match part with
    | .question t => t.isPipe && (decide (minBp = Infix.pipe.rightBp) || !t.wrapped)
    | _ => false

/-- Whether a spine ends in an expression that starts with a minus sign. -/
def leadsWithMinus (spine : List Expr) : Bool :=
  match spine.getLast? with
  | some (.int i) => i = smallest
  | some (.unary .neg _) => true
  | _ => false

/-- Whether a pipeline in front of a `?` at `ctx` is printed without its parentheses though its last
stage, which has none, is open on the right. -/
def losesStage (ctx : Ctx) (pipeline : Expr) : Bool :=
  match pipeline.stage with
  | some stage =>
    pipeline.wrapped && !stage.wrapped && needsParens stage .atStage &&
      decide (takesFromUnwrapped stage ≠ closed) && !needsParens pipeline ctx
  | none => false

/-- Where an expression stands inside the parentheses that it keeps. -/
def Ctx.inside (ctx : Ctx) (kept : Bool) : Ctx :=
  if kept then .top else ctx

mutual

/-- Whether the expression, printed at `ctx` without parentheses around it, has none of the above
within it. -/
def keepsTree : Ctx → Expr → Bool
  | _, .name _ => true
  | _, .int _ => true
  | ctx, .paren t => keepsTree ctx t
  | _, .unary op t =>
    if doubled op t then keepsTree (if t.wrapped then .top else .right unaryBp) t
    else
      keepsTree ((Ctx.right unaryBp).inside (keeps t (.right unaryBp))) t &&
        !leadsWithPipe unaryBp (spine (.right unaryBp) t) &&
        !(decide (op = .neg) && leadsWithMinus (spine (.right unaryBp) t))
  | ctx, .infixed l op r =>
    keepsTree ((ctx.left op.leftBp).inside (keeps l (ctx.left op.leftBp))) l &&
      keepsTree ((ctx.rightAt op).inside (keeps r (ctx.rightAt op))) r &&
      !leadsWithPipe op.rightBp (spine (ctx.rightAt op) r)
  | ctx, .question t =>
    if t.isPipe then
      keepsTree ((ctx.beforeQuestion t).inside (keeps t (ctx.beforeQuestion t))) t &&
        !losesStage ctx t
    else keepsTree ((ctx.left callBp).inside (keepsHead t (ctx.left callBp))) t
  | ctx, .field t _ => keepsTree ((ctx.left fieldBp).inside (keepsHead t (ctx.left fieldBp))) t
  | ctx, .call t args _ =>
    keepsTree ((ctx.left callBp).inside (keepsHead t (ctx.left callBp))) t && keepsAll args
  | ctx, .ascription t _ _ => keepsTree ((ctx.left asBp).inside (keeps t (ctx.left asBp))) t

def keepsAll : List Expr → Bool
  | [] => true
  | t :: ts => keepsTree .top t && keepsAll ts

end

/-! ### Trees and their links -/

/-- The link behind the tree is taken by nothing that is still reading. -/
def Free (t : Expr) (link : Link) : Prop :=
  ∀ reader ∈ opens t, takes reader link = false

theorem takes_zero (link : Link) : takes (.operand 0) link = true := by
  cases link <;> rfl

theorem follows_iff {minBp : Nat} :
    Follows minBp t link ↔ takes (.operand minBp) link = true ∧ Free t link :=
  ⟨fun h => ⟨h.goesOn, h.free⟩, fun h => ⟨h.1, h.2⟩⟩

theorem builds_infixed {r : Expr} {op : Infix} :
    Builds m (.infixed l op r) ↔ Builds m l ∧ Follows m l (.infixed op) ∧ Builds op.rightBp r := by
  constructor
  · rintro ⟨⟩
    exact ⟨‹_›, ‹_›, ‹_›⟩
  · rintro ⟨hl, hop, hr⟩
    exact .infixed hl hop hr

theorem builds_unary {op : UnaryOp} : Builds m (.unary op t) ↔ Builds unaryBp t := by
  constructor
  · rintro ⟨⟩
    exact ‹_›
  · exact .unary m op

theorem builds_question : Builds m (.question t) ↔ Builds m t ∧ Follows m t .question := by
  constructor
  · rintro ⟨⟩
    exact ⟨‹_›, ‹_›⟩
  · rintro ⟨h, hop⟩
    exact .question h hop

theorem builds_field {name : String} :
    Builds m (.field t name) ↔ Builds m t ∧ Follows m t .field := by
  constructor
  · rintro ⟨⟩
    exact ⟨‹_›, ‹_›⟩
  · rintro ⟨h, hop⟩
    exact .field name h hop

theorem builds_call {args : List Expr} {comma : Bool} :
    Builds m (.call t args comma) ↔
      Builds m t ∧ Follows m t .call ∧ (∀ arg ∈ args, Builds 0 arg) ∧
        (comma = true → args ≠ []) := by
  constructor
  · rintro ⟨⟩
    exact ⟨‹_›, ‹_›, ‹_›, ‹_›⟩
  · rintro ⟨h, hop, ha, hc⟩
    exact .call h hop ha hc

theorem builds_ascription {ty : TypeName} {ps : Nat} :
    Builds m (.ascription t ty ps) ↔ Builds m t ∧ Follows m t .ascription := by
  constructor
  · rintro ⟨⟩
    exact ⟨‹_›, ‹_›⟩
  · rintro ⟨h, hop⟩
    exact .ascription ty ps h hop

theorem builds_paren : Builds m (.paren t) ↔ Builds 0 t := by
  constructor
  · rintro ⟨⟩
    exact ‹_›
  · exact .paren m

/-- A tree is read from a binding power on if it is read, and the reader goes on with its links. -/
theorem builds_iff_links :
    Builds m t ↔ Builds 0 t ∧ ∀ link ∈ links t, takes (.operand m) link = true := by
  induction t using Expr.induct with
  | name x => exact ⟨fun _ => ⟨.name 0 x, nofun⟩, fun _ => .name m x⟩
  | int i => exact ⟨fun _ => ⟨.int 0 i, nofun⟩, fun _ => .int m i⟩
  | unary op t _ => simp [builds_unary, links]
  | infixed l op r ih _ | question t ih | field t name ih | call t args comma ih _
  | ascription t ty ps ih =>
    simp only [builds_infixed, builds_question, builds_field, builds_call, builds_ascription, ih,
      follows_iff, links, forall_mem_cons]
    tauto
  | paren t _ => simp [builds_paren, links]

/-! ### What needs parentheses -/

theorem unaryBp_le_closed : unaryBp ≤ closed := by decide

theorem unaryBp_le_asBp : unaryBp ≤ asBp := by decide

theorem leftBp_le (op : Infix) : op.leftBp ≤ 80 := by
  cases op with
  | binary op => cases op <;> decide
  | _ => decide

theorem rightBp_eq_pipe {op : Infix} (h : op.rightBp = Infix.pipe.rightBp) : op = .pipe := by
  cases op with
  | binary op => cases op <;> simp [Infix.rightBp, Infix.leftBp, BinOp.bp] at h
  | pipe => rfl
  | range => simp [Infix.rightBp, Infix.leftBp] at h

/-- An expression needs no parentheses at `ctx` if its top binds as tightly as it is read, what is
behind it is not taken from it, and no `?` ends it. -/
theorem needsParens_eq_false :
    needsParens t ctx = false ↔
      ctx.minBp ≤ topBp t ∧
        (∀ follows, ctx.leftOf = some follows →
          follows ≤ topBp t ∧ follows < takesFromUnwrapped t) ∧
        (ctx.stage = true → questionOnLeftSpine t = false) := by
  rw [needsParens, needsBy]
  grind

theorem needsParens_top (t : Expr) : needsParens t .top = false := by
  rw [needsParens_eq_false]
  exact ⟨Nat.zero_le _, nofun, nofun⟩

theorem keeps_top (t : Expr) : keeps t .top = false := by
  rw [keeps, needsParens_top, Bool.and_false]

theorem keeps_eq_false : keeps t ctx = false ↔ t.wrapped = false ∨ needsParens t ctx = false := by
  rw [keeps, Bool.and_eq_false_iff]

/-- The binding power from which on the right end of an expression reads, if an operand ends it. -/
def rightMin : Expr → Option Nat
  | .paren t => rightMin t
  | .infixed _ op _ => some op.rightBp
  | .unary _ _ => some unaryBp
  | _ => none

theorem rightBp_le (op : Infix) : op.rightBp ≤ unaryBp := by
  have hbp := leftBp_le op
  rw [Infix.rightBp, unaryBp]
  omega

theorem rightMin_le (h : rightMin t = some m) : m ≤ unaryBp := by
  induction t using Expr.induct with
  | infixed l op r _ _ =>
    rw [← Option.some_inj.mp h]
    exact rightBp_le op
  | unary op t _ => rw [← Option.some_inj.mp h]
  | paren t ih => exact ih h
  | _ => cases h

/-- The right end of an expression reads from at least as tight a binding power as the expression.
-/
theorem le_rightMin {k : Nat} (h : rightMin t = some k) (ht : m ≤ topBp t) (hm : m ≤ unaryBp) :
    m ≤ k := by
  induction t using Expr.induct with
  | infixed l op r _ _ =>
    rw [← Option.some_inj.mp h]
    exact ht.trans (Nat.le_succ _)
  | unary op t _ =>
    rw [← Option.some_inj.mp h]
    exact hm
  | paren t ih => exact ih h ht
  | _ => cases h

/-- The last operand of an expression takes nothing that the expression does not take. -/
theorem min_operand (hm : ctx.minBp ≤ unaryBp)
    (ht : takesFromUnwrapped t = (rightMin t).getD closed) :
    min ctx.minBp (if needsParens t ctx then closed else takesFromUnwrapped t) = ctx.minBp := by
  refine Nat.min_eq_left ?_
  split_ifs with hn
  · exact hm.trans unaryBp_le_closed
  · have htp := (needsParens_eq_false.mp (Bool.not_eq_true _ ▸ hn)).1
    rw [ht]
    cases hr : rightMin t with
    | none => exact hm.trans unaryBp_le_closed
    | some k => exact le_rightMin hr htp hm

/-- What is taken from an expression is what its right end reads. -/
theorem takesFromUnwrapped_eq (t : Expr) : takesFromUnwrapped t = (rightMin t).getD closed := by
  induction t using Expr.induct with
  | infixed l op r _ ihr =>
    have hm : (Ctx.rightOf op).minBp = op.rightBp := by cases op <;> rfl
    have hr := @min_operand r (Ctx.rightOf op) (hm ▸ rightBp_le op) ihr
    rw [hm] at hr
    exact hr
  | unary op t ih => exact @min_operand t (.right unaryBp) le_rfl ih
  | paren t ih => exact ih
  | _ => rfl

theorem takesFromUnwrapped_some (h : rightMin t = some m) : takesFromUnwrapped t = m := by
  rw [takesFromUnwrapped_eq, h, Option.getD_some]

theorem takesFromUnwrapped_none (h : rightMin t = none) : takesFromUnwrapped t = closed := by
  rw [takesFromUnwrapped_eq, h, Option.getD_none]

/-- The right end of an expression in no parentheses is still reading at its end. -/
theorem rightMin_mem_opens (hb : t.wrapped = false) (h : rightMin t = some m) :
    .operand m ∈ opens t := by
  cases t with
  | infixed l op r | unary op t => simp [opens, ← Option.some_inj.mp h]
  | paren t => simp [Expr.wrapped] at hb
  | _ => cases h

/-- A `?` on a pipeline. -/
def PipedQuestion (t : Expr) : Prop :=
  ∃ u, t = .question u ∧ u.isPipe = true

/-- An operand that is printed without parentheses has a top that binds as tightly as it is read, or
is a `?` on a pipeline. -/
theorem le_topBp_of_builds (hk : keeps t ctx = false) (hb : Builds ctx.minBp t)
    (hm : ctx.minBp ≤ unaryBp) : ctx.minBp ≤ topBp t ∨ PipedQuestion t := by
  have hc : ctx.minBp ≤ closed := hm.trans unaryBp_le_closed
  rcases keeps_eq_false.mp hk with hbr | hn
  · cases t with
    | infixed l op r =>
      exact Or.inl (Nat.not_lt.mp ((takes_operand (by nofun)).mp (builds_infixed.mp hb).2.1.goesOn))
    | ascription t ty ps => exact Or.inl (hm.trans unaryBp_le_asBp)
    | question t =>
      cases hp : t.isPipe with
      | true => exact Or.inr ⟨t, rfl, hp⟩
      | false =>
        left
        rw [topBp, hp]
        exact hc
    | paren t => simp [Expr.wrapped] at hbr
    | _ => exact Or.inl hc
  · exact Or.inl (needsParens_eq_false.mp hn).1

/-! ### The right end of what is printed -/

theorem opens_paren (t : Expr) : opens (.paren t) = [] := rfl

theorem opens_place {kept : Bool} {inside outside : Expr}
    (h : reader ∈ opens (place kept inside outside)) : kept = false ∧ reader ∈ opens outside := by
  cases kept with
  | true => simp [place, opens] at h
  | false => exact ⟨rfl, h⟩

/-- Whether the expression ends in the type of an `as`. -/
def isAscription : Expr → Bool
  | .paren t => isAscription t
  | .ascription _ _ _ => true
  | _ => false

theorem topBp_of_isAscription (h : isAscription t = true) : topBp t = asBp := by
  induction t using Expr.induct with
  | paren t ih => exact ih h
  | ascription t ty ps _ => rfl
  | _ => cases h

/-- What is still reading at the end of a printed expression: operands that read from its
`rightMin` on, or a type. -/
inductive EndsWith (t : Expr) : Reader → Prop
  | operand {m k : Nat} (h : rightMin t = some m) (hle : m ≤ k) : EndsWith t (.operand k)
  | typeOf {m : Nat} (h : rightMin t = some m) : EndsWith t .typeName
  | typeName (h : isAscription t = true) : EndsWith t .typeName

theorem EndsWith.right {r : Expr} (h : EndsWith r reader) (ctx : Ctx)
    (hm : rightMin t = some ctx.minBp) (hk : keeps r ctx = false)
    (hb : Builds ctx.minBp r) : EndsWith t reader := by
  cases h with
  | @operand m k h hle =>
    refine .operand hm ((?_ : ctx.minBp ≤ m).trans hle)
    rcases le_topBp_of_builds hk hb (rightMin_le hm) with ht | ⟨u, rfl, -⟩
    · exact le_rightMin h ht (rightMin_le hm)
    · cases h
  | typeOf _ | typeName _ => exact .typeOf hm

theorem opens_bareExpr (hb : Builds 0 t) (h : reader ∈ opens (bareExpr ctx t)) :
    EndsWith t reader := by
  induction t using Expr.induct generalizing ctx with
  | name x | int i => simp [bareExpr, opens] at h
  | unary op t ih =>
    have ho := builds_unary.mp hb
    rw [bareExpr] at h
    by_cases hd : doubled op t = true
    · rw [if_pos hd, opens, opens_paren, mem_singleton] at h
      exact h ▸ .operand rfl le_rfl
    · rw [if_neg hd, opens, mem_cons] at h
      rcases h with rfl | h
      · exact .operand rfl le_rfl
      · obtain ⟨hk, h⟩ := opens_place h
        exact (ih (builds_iff_links.mp ho).1 h).right (.right unaryBp) rfl hk ho
  | infixed l op r _ ihr =>
    obtain ⟨-, -, hr⟩ := builds_infixed.mp hb
    rw [bareExpr, opens, mem_cons] at h
    rcases h with rfl | h
    · exact .operand rfl le_rfl
    · obtain ⟨hk, h⟩ := opens_place h
      have hm : (ctx.rightAt op).minBp = op.rightBp := by
        cases op with
        | pipe => rw [Ctx.rightAt]; split_ifs <;> rfl
        | _ => rfl
      refine (ihr (builds_iff_links.mp hr).1 h).right (ctx.rightAt op) ?_ hk ?_
      · rw [hm]
        rfl
      · rw [hm]
        exact hr
  | question t _ =>
    rw [bareExpr] at h
    split_ifs at h <;> simp [opens] at h
  | field t name _ | call t args comma _ _ => simp [bareExpr, opens] at h
  | ascription t ty ps _ =>
    rw [bareExpr, opens, mem_singleton] at h
    exact h ▸ .typeName rfl
  | paren t ih =>
    have he := ih (builds_paren.mp hb) h
    cases he with
    | operand hm hle => exact .operand hm hle
    | typeOf hm => exact .typeOf hm
    | typeName ht => exact .typeName ht

/-- Whether an operand in front of the link is printed in parentheses. -/
def Link.keeps (link : Link) (t : Expr) (ctx : Ctx) : Bool :=
  match link with
  | .question | .call | .field => keepsHead t ctx
  | _ => Operators.keeps t ctx

theorem keepsHead_eq_false (h : keepsHead t ctx = false) :
    keeps t ctx = false ∧ ∀ u ty ps, t ≠ .ascription u ty ps := by
  cases t with
  | ascription u ty ps => cases h
  | _ => exact ⟨h, nofun⟩

theorem Link.keeps_eq_false (h : link.keeps t ctx = false) :
    Operators.keeps t ctx = false ∧ (asBp < link.bp → ∀ u ty ps, t ≠ .ascription u ty ps) := by
  cases link with
  | infixed op =>
    refine ⟨h, fun hlt => absurd hlt (Nat.not_lt.mpr ?_)⟩
    exact (leftBp_le op).trans (by decide)
  | ascription => exact ⟨h, fun hlt => absurd hlt (by decide)⟩
  | _ => exact ⟨(keepsHead_eq_false h).1, fun _ => (keepsHead_eq_false h).2⟩

theorem Link.bp_le_closed (link : Link) : link.bp ≤ closed := by
  cases link with
  | infixed op => exact (leftBp_le op).trans (by decide)
  | _ => decide

theorem rightMin_pipe (h : rightMin t = some Infix.pipe.rightBp) : t.isPipe = true := by
  induction t using Expr.induct with
  | infixed l op r _ _ =>
    rw [rightBp_eq_pipe (Option.some_inj.mp h)]
    rfl
  | paren t ih => exact ih h
  | _ => cases h

/-- An operand in front of a link that is printed without parentheses: what ends it binds tighter
than the link. -/
theorem bp_lt_rightMin (hk : keeps t (ctx.left link.bp) = false) (hf : Free t link)
    (hp : link = .question → t.isPipe = false) (hm : rightMin t = some m) :
    link ≠ .question ∧ link.bp < m := by
  have hle := rightMin_le hm
  rcases keeps_eq_false.mp hk with hb | hn
  · have ht := hf _ (rightMin_mem_opens hb hm)
    by_cases hq : link = .question
    · subst hq
      have heq : m = Infix.pipe.rightBp := by simpa [takes] using ht
      have hy := rightMin_pipe (heq ▸ hm)
      rw [hp rfl] at hy
      cases hy
    · exact ⟨hq, (not_takes_operand hq).mp ht⟩
  · have hlt := ((needsParens_eq_false.mp hn).2.1 link.bp rfl).2
    rw [takesFromUnwrapped_some hm] at hlt
    refine ⟨?_, hlt⟩
    rintro rfl
    rw [unaryBp] at hle
    rw [Link.bp, callBp] at hlt
    omega

theorem bp_le_topBp (hk : link.keeps t (ctx.left link.bp) = false) (hf : Free t link)
    (hp : link = .question → t.isPipe = false) : link.bp ≤ topBp t ∨ PipedQuestion t := by
  obtain ⟨hk, hh⟩ := Link.keeps_eq_false hk
  rcases keeps_eq_false.mp hk with hb | hn
  · cases t with
    | infixed l op r =>
      have hlt := (bp_lt_rightMin hk hf hp rfl).2
      exact Or.inl (Nat.lt_succ_iff.mp hlt)
    | ascription t ty ps =>
      left
      by_contra hlt
      exact hh (Nat.not_le.mp hlt) t ty ps rfl
    | question t =>
      cases hi : t.isPipe with
      | true => exact Or.inr ⟨t, rfl, hi⟩
      | false =>
        left
        rw [topBp, hi]
        exact link.bp_le_closed
    | paren t => simp [Expr.wrapped] at hb
    | _ => exact Or.inl link.bp_le_closed
  · exact Or.inl ((needsParens_eq_false.mp hn).2.1 link.bp rfl).1

/-- No link in front of which an operand is printed without parentheses is taken from it. -/
theorem free_bareExpr (hb : Builds 0 t) (hk : link.keeps t (ctx.left link.bp) = false)
    (hf : Free t link) (hp : link = .question → t.isPipe = false) :
    Free (bareExpr (ctx.left link.bp) t) link := by
  intro reader hr
  obtain ⟨hk', hh⟩ := Link.keeps_eq_false hk
  have he := opens_bareExpr hb hr
  cases he with
  | operand hm hle =>
    obtain ⟨hq, hlt⟩ := bp_lt_rightMin hk' hf hp hm
    exact (not_takes_operand hq).mpr (hlt.trans_le hle)
  | typeOf hm =>
    have hlt := (bp_lt_rightMin hk' hf hp hm).2.trans_le (rightMin_le hm)
    cases link with
    | call | field => exact absurd hlt (by decide)
    | _ => rfl
  | typeName ht =>
    have hle : asBp < link.bp → False := by
      rcases bp_le_topBp hk hf hp with htp | ⟨u, rfl, -⟩
      · rw [topBp_of_isAscription ht] at htp
        omega
      · cases ht
    cases link with
    | call | field => exact (hle (by decide)).elim
    | _ => rfl

theorem free_place {kept : Bool} {inside outside : Expr} (h : kept = false → Free outside link) :
    Free (place kept inside outside) link := by
  intro reader hr
  obtain ⟨hk, hm⟩ := opens_place hr
  exact h hk reader hm

/-! ### A `?` behind a pipeline -/

theorem topBp_of_isPipe (h : t.isPipe = true) : topBp t = Infix.pipe.leftBp := by
  induction t using Expr.induct with
  | paren t ih => exact ih h
  | infixed l op r _ _ =>
    cases op with
    | pipe => rfl
    | _ => cases h
  | _ => cases h

/-- A pipeline that is printed without parentheses ends in its last stage. -/
theorem opens_pipeline (h : t.stage = some stage) :
    opens (bareExpr ctx t) = .operand Infix.pipe.rightBp ::
      opens (place (keeps stage (ctx.rightAt .pipe)) (bareExpr .top stage)
        (bareExpr (ctx.rightAt .pipe) stage)) := by
  induction t using Expr.induct with
  | paren t ih => exact ih h
  | infixed l op r _ _ =>
    cases op with
    | pipe =>
      rw [← Option.some_inj.mp h]
      rfl
    | _ => cases h
  | _ => cases h

theorem builds_stage (h : t.stage = some stage) (hb : Builds 0 t) :
    Builds Infix.pipe.rightBp stage := by
  induction t using Expr.induct with
  | paren t ih => exact ih h (builds_paren.mp hb)
  | infixed l op r _ _ =>
    cases op with
    | pipe =>
      rw [← Option.some_inj.mp h]
      exact (builds_infixed.mp hb).2.2
    | _ => cases h
  | _ => cases h

/-- A stage in no parentheses is no pipeline. -/
theorem rightMin_stage_ne (hbr : stage.wrapped = false) (hb : Builds Infix.pipe.rightBp stage) :
    rightMin stage ≠ some Infix.pipe.rightBp := by
  intro hm
  cases stage with
  | infixed l op r =>
    obtain rfl := rightBp_eq_pipe (Option.some_inj.mp hm)
    have hle := Nat.not_lt.mp ((takes_operand (by nofun)).mp (builds_infixed.mp hb).2.1.goesOn)
    exact absurd hle (by decide)
  | paren t => simp [Expr.wrapped] at hbr
  | _ => cases hm

theorem rightMin_mem_opens_bareExpr (h : rightMin t = some m) :
    .operand m ∈ opens (bareExpr ctx t) := by
  induction t using Expr.induct with
  | infixed l op r _ _ =>
    rw [← Option.some_inj.mp h]
    exact mem_cons_self
  | unary op t _ =>
    rw [← Option.some_inj.mp h, bareExpr]
    by_cases hd : doubled op t = true
    · rw [if_pos hd]
      exact mem_cons_self
    · rw [if_neg hd]
      exact mem_cons_self
  | paren t ih => exact ih h
  | _ => cases h

/-- A `?` is not taken from an expression that no operand ends. -/
theorem free_question (hb : Builds 0 t) (h : rightMin t = none) :
    Free (bareExpr ctx t) .question := by
  intro reader hr
  have he := opens_bareExpr hb hr
  cases he with
  | operand hm _ | typeOf hm => simp [h] at hm
  | typeName _ => rfl

/-- A `?` behind a stage in no parentheses is not taken from it if and only if no operand ends the
stage. -/
theorem free_stage_iff (hbr : stage.wrapped = false) (hb : Builds Infix.pipe.rightBp stage) :
    Free (bareExpr ctx stage) .question ↔ takesFromUnwrapped stage = closed := by
  cases hm : rightMin stage with
  | none =>
    have hf : Free (bareExpr ctx stage) .question := free_question (builds_iff_links.mp hb).1 hm
    exact ⟨fun _ => takesFromUnwrapped_none hm, fun _ => hf⟩
  | some m =>
    have hne : m ≠ Infix.pipe.rightBp := by
      rintro rfl
      exact rightMin_stage_ne hbr hb hm
    have ho : takesFromUnwrapped stage ≠ closed := by
      rw [takesFromUnwrapped_some hm]
      exact ne_of_lt ((rightMin_le hm).trans_lt (by decide))
    refine ⟨fun hf => ?_, fun h => absurd h ho⟩
    have ht := hf _ (rightMin_mem_opens_bareExpr hm)
    exact absurd ht (by simpa [takes] using hne)

/-- A pipeline is in front of a `?` what it is at `ctx`, unless its parentheses keep an open stage
from the `?`. -/
theorem beforeQuestion_cases (ctx : Ctx) (h : t.stage = some stage) :
    (takesFrom stage .atStage ≠ closed ∧ t.wrapped = true ∧ keeps t (ctx.beforeQuestion t) = true) ∨
      ((takesFrom stage .atStage ≠ closed → t.wrapped = false) ∧
        ctx.beforeQuestion t = { ctx with questionFollows := true } ∧
        keeps t (ctx.beforeQuestion t) = keeps t ctx) := by
  by_cases ho : takesFrom stage .atStage ≠ closed ∧ t.wrapped = true
  · left
    have hc : ctx.beforeQuestion t = ctx.left callBp := by
      rw [Ctx.beforeQuestion, h]
      exact if_pos ho
    refine ⟨ho.1, ho.2, ?_⟩
    have hp : t.isPipe = true := by rw [Expr.isPipe, h]; rfl
    rw [hc, keeps, ho.2, Bool.true_and]
    by_contra hn
    have ht := ((needsParens_eq_false.mp (Bool.not_eq_true _ ▸ hn)).2.1 callBp rfl).1
    rw [topBp_of_isPipe hp] at ht
    exact absurd ht (by decide)
  · right
    have hc : ctx.beforeQuestion t = { ctx with questionFollows := true } := by
      rw [Ctx.beforeQuestion, h]
      exact if_neg ho
    refine ⟨fun hne => ?_, hc, ?_⟩
    · by_contra hw
      exact ho ⟨hne, by simpa using hw⟩
    · rw [hc]
      rfl

/-- A stage in front of the `?` behind its pipeline: its parentheses stay if it is open. -/
theorem free_stage (hw : stage.wrapped = true) (hl : ctx.leftOf = some callBp)
    (hb : Builds 0 stage) :
    Free (place (keeps stage ctx) (bareExpr .top stage) (bareExpr ctx stage)) .question := by
  refine free_place fun hk => free_question hb ?_
  rw [keeps, hw, Bool.true_and] at hk
  have hlt := ((needsParens_eq_false.mp hk).2.1 callBp hl).2
  cases hm : rightMin stage with
  | none => rfl
  | some m =>
    rw [takesFromUnwrapped_some hm] at hlt
    exact absurd (hlt.trans_le (rightMin_le hm)) (by decide)

/-- The last stage of a pipeline in front of a `?` in the source is closed, if neither is in
parentheses. -/
theorem stage_closed (hw : t.wrapped = false) (hsw : stage.wrapped = false)
    (hst : t.stage = some stage) (hs : Builds Infix.pipe.rightBp stage)
    (hf : Free t .question) : takesFromUnwrapped stage = closed := by
  have ho : opens t = .operand Infix.pipe.rightBp :: opens stage := by
    cases t with
    | infixed l op r =>
      cases op with
      | pipe =>
        rw [← Option.some_inj.mp hst]
        rfl
      | _ => cases hst
    | paren t => simp [Expr.wrapped] at hw
    | _ => cases hst
  cases hm : rightMin stage with
  | none => exact takesFromUnwrapped_none hm
  | some m =>
    have hmm : .operand m ∈ opens t := by
      rw [ho]
      exact mem_cons_of_mem _ (rightMin_mem_opens hsw hm)
    have heq : m = Infix.pipe.rightBp := by simpa [takes] using hf _ hmm
    exact absurd (heq ▸ hm) (rightMin_stage_ne hsw hs)

/-- The `?` behind a pipeline is not taken from what is printed of it if and only if the pipeline
does not lose its stage. -/
theorem free_pipeline_iff (hst : t.stage = some stage) (hb : Builds 0 t) (hf : Free t .question) :
    Free (place (keeps t (ctx.beforeQuestion t)) (bareExpr .top t)
      (bareExpr (ctx.beforeQuestion t) t)) .question ↔ losesStage ctx t = false := by
  have hs := builds_stage hst hb
  have hs0 := (builds_iff_links.mp hs).1
  rw [losesStage, hst]
  rcases beforeQuestion_cases ctx hst with ⟨ho, hwr, hkp⟩ | ⟨hc, hct, hkp⟩
  · -- the parentheses stay
    have hn : needsParens stage .atStage = false := by
      by_contra hn
      rw [takesFrom, if_pos (by simpa using hn)] at ho
      exact ho rfl
    refine ⟨fun _ => by simp [hn], fun _ => free_place fun hnt => ?_⟩
    rw [hkp] at hnt
    cases hnt
  · cases hk : keeps t ctx with
    | true =>
      have hn : needsParens t ctx = true := by
        rw [keeps, Bool.and_eq_true] at hk
        exact hk.2
      refine ⟨fun _ => by simp [hn], fun _ => free_place fun hnt => ?_⟩
      rw [hkp, hk] at hnt
      cases hnt
    | false =>
      have hp : place (keeps t (ctx.beforeQuestion t)) (bareExpr .top t)
          (bareExpr (ctx.beforeQuestion t) t) = bareExpr (ctx.beforeQuestion t) t := by
        rw [hkp, hk]
        rfl
      -- the pipeline's own reader leaves the `?`, so the stage decides
      have hsg : Free (bareExpr (ctx.beforeQuestion t) t) .question ↔
          Free (place (keeps stage ((ctx.beforeQuestion t).rightAt .pipe)) (bareExpr .top stage)
            (bareExpr ((ctx.beforeQuestion t).rightAt .pipe) stage)) .question := by
        rw [Free, opens_pipeline hst, forall_mem_cons]
        exact and_iff_right rfl
      have hl : ((ctx.beforeQuestion t).rightAt .pipe).leftOf = some callBp := by
        rw [hct]
        rfl
      rw [hp, hsg]
      cases hsw : stage.wrapped with
      | true => exact ⟨fun _ => by simp [hsw], fun _ => free_stage hsw hl hs0⟩
      | false =>
        have hnt : keeps stage ((ctx.beforeQuestion t).rightAt .pipe) = false := by
          rw [keeps, hsw, Bool.false_and]
        rw [hnt]
        change Free (bareExpr ((ctx.beforeQuestion t).rightAt .pipe) stage) .question ↔ _
        rw [free_stage_iff hsw hs]
        cases hw : t.wrapped with
        | true =>
          have hn : needsParens t ctx = false := by
            rw [keeps, hw, Bool.true_and] at hk
            exact hk
          have ht : takesFrom stage .atStage = closed := by
            by_contra hne
            rw [hc hne] at hw
            cases hw
          by_cases ho : takesFromUnwrapped stage = closed
          · simp [ho]
          · have hss : needsParens stage .atStage = true := by
              by_contra hno
              rw [takesFrom, if_neg hno] at ht
              exact ho ht
            simp [ho, hss, hn, hsw]
        | false =>
          exact ⟨fun _ => by simp, fun _ => stage_closed hw hsw hst hs hf⟩

/-! ### The links of what is printed -/

/-- The link at the top of an expression. -/
def topLink : Expr → Option Link
  | .infixed _ op _ => some (.infixed op)
  | .question _ => some .question
  | .field _ _ => some .field
  | .call _ _ _ => some .call
  | .ascription _ _ _ => some .ascription
  | _ => none

theorem links_place (kept : Bool) (inside outside : Expr) :
    links (place kept inside outside) = if kept then [] else links outside := by
  cases kept <;> rfl

theorem links_bareExpr (ctx : Ctx) (t : Expr) :
    links (bareExpr ctx t) = (bareSpine ctx t).filterMap topLink := by
  induction t using Expr.induct generalizing ctx with
  | name x | int i => rfl
  | unary op t _ =>
    rw [bareExpr]
    by_cases hd : doubled op t = true
    · rw [if_pos hd]
      rfl
    · rw [if_neg hd]
      rfl
  | infixed l op r ihl _ =>
    rw [bareExpr, links, links_place, bareSpine, filterMap_cons, ihl]
    split_ifs <;> rfl
  | question t ih =>
    rw [bareExpr, bareSpine, filterMap_cons]
    by_cases hp : t.isPipe = true
    · rw [if_pos hp, if_pos hp, links, links_place, ih]
      split_ifs <;> rfl
    · rw [if_neg hp, if_neg hp, links, links_place, ih]
      split_ifs <;> rfl
  | field t name ih | call t args comma ih _ | ascription t ty ps ih =>
    rw [bareExpr, links, links_place, bareSpine, filterMap_cons, ih]
    split_ifs <;> rfl
  | paren t ih => exact ih ctx

theorem mem_links_printed :
    link ∈ links (printed ctx t) ↔ ∃ part ∈ spine ctx t, topLink part = some link := by
  rw [printed, links_place, spine]
  split_ifs with hk
  · simp
  · rw [links_bareExpr, mem_filterMap]

/-- An expression with a link at its top, and the operand in front of the link.  The `?` on a
pipeline is apart. -/
inductive LinkNode : Expr → Expr → Link → Prop
  | infixed (l : Expr) (op : Infix) (r : Expr) : LinkNode (.infixed l op r) l (.infixed op)
  | question {t : Expr} (h : t.isPipe = false) : LinkNode (.question t) t .question
  | field (t : Expr) (name : String) : LinkNode (.field t name) t .field
  | call (t : Expr) (args : List Expr) (comma : Bool) : LinkNode (.call t args comma) t .call
  | ascription (t : Expr) (ty : TypeName) (parens : Nat) :
      LinkNode (.ascription t ty parens) t .ascription

/-- An expression that no operand starts. -/
inductive Leaf : Expr → Prop
  | name (x : String) : Leaf (.name x)
  | int (i : Int) : Leaf (.int i)
  | unary (op : UnaryOp) (t : Expr) : Leaf (.unary op t)

theorem Leaf.bareSpine_eq (h : Leaf t) (ctx : Ctx) : bareSpine ctx t = [t] := by
  cases h <;> rfl

theorem Leaf.topLink_eq (h : Leaf t) : topLink t = none := by
  cases h <;> rfl

/-- Induction along the leftmost operands. -/
theorem Expr.leftInduct {motive : Expr → Prop} (paren : ∀ t, motive t → motive (.paren t))
    (leaf : ∀ t, Leaf t → motive t) (link : ∀ t l link, LinkNode t l link → motive l → motive t)
    (piped : ∀ t, t.isPipe = true → motive t → motive (.question t)) (t : Expr) : motive t := by
  induction t using Expr.induct with
  | name x => exact leaf _ (.name x)
  | int i => exact leaf _ (.int i)
  | unary op t _ => exact leaf _ (.unary op t)
  | infixed l op r ihl _ => exact link _ _ _ (.infixed l op r) ihl
  | question t ih =>
    cases hp : t.isPipe with
    | true => exact piped t hp ih
    | false => exact link _ _ _ (.question hp) ih
  | field t name ih => exact link _ _ _ (.field t name) ih
  | call t args comma ih _ => exact link _ _ _ (.call t args comma) ih
  | ascription t ty ps ih => exact link _ _ _ (.ascription t ty ps) ih
  | paren t ih => exact paren t ih

namespace LinkNode

variable {t l : Expr} {link : Link}

section

variable (h : LinkNode t l link)

include h

theorem topLink_eq : topLink t = some link := by
  cases h <;> rfl

theorem links_eq : links t = link :: links l := by
  cases h <;> rfl

theorem bareSpine_eq (ctx : Ctx) :
    bareSpine ctx t =
      t :: if link.keeps l (ctx.left link.bp) then [] else bareSpine (ctx.left link.bp) l := by
  cases h with
  | question hp =>
    rw [bareSpine, hp]
    rfl
  | _ => rfl

theorem builds (hb : Builds 0 t) : Builds 0 l ∧ Free l link := by
  cases h <;> cases hb <;> exact ⟨‹_›, Follows.free ‹_›⟩

theorem not_pipe : link = .question → l.isPipe = false := by
  rintro rfl
  cases h
  assumption

theorem not_piped : ¬ PipedQuestion t := by
  rintro ⟨u, rfl, hp⟩
  cases h with
  | question hn => simp [hn] at hp

theorem le_bp {m : Nat} (ht : m ≤ topBp t) (hm : m ≤ unaryBp) : m ≤ link.bp := by
  cases h with
  | infixed l op r => exact ht
  | _ => exact hm.trans (by decide)

theorem le_topBp {ctx : Ctx} (hb : Builds 0 t) (hk : link.keeps l (ctx.left link.bp) = false)
    {m : Nat} (hm : m ≤ link.bp) : m ≤ topBp l ∨ PipedQuestion l := by
  rcases bp_le_topBp hk (h.builds hb).2 h.not_pipe with ht | hp
  · exact Or.inl (hm.trans ht)
  · exact Or.inr hp

end

end LinkNode

/-- An operand of a link that is printed without parentheses is a `?` on a pipeline, if it is taken
for one that has them. -/
theorem LinkNode.piped_of_needs (h : LinkNode t l link) (hb : Builds 0 t)
    (hk : link.keeps l (ctx.left link.bp) = false)
    (hn : needsParens l (Ctx.top.left link.bp) = true) : PipedQuestion l := by
  obtain ⟨-, hfr⟩ := h.builds hb
  rcases bp_le_topBp hk hfr h.not_pipe with ht | hp
  · have hlt : link.bp < takesFromUnwrapped l := by
      cases hm : rightMin l with
      | none =>
        rw [takesFromUnwrapped_none hm]
        cases link with
        | infixed op => exact (leftBp_le op).trans_lt (by decide)
        | _ => decide
      | some m =>
        rw [takesFromUnwrapped_some hm]
        exact (bp_lt_rightMin (Link.keeps_eq_false hk).1 hfr h.not_pipe hm).2
    have hnt : needsParens l (Ctx.top.left link.bp) = false := by
      refine needsParens_eq_false.mpr ⟨Nat.zero_le _, fun follows hf => ?_, nofun⟩
      rw [← Option.some_inj.mp hf]
      exact ⟨ht, hlt⟩
    rw [hnt] at hn
    cases hn
  · exact hp

/-! ### Operands that are printed without parentheses -/

/-- What stands at `ctx` is read from `m` on, or in front of something that binds as tightly. -/
def Above (m : Nat) (ctx : Ctx) : Prop :=
  m ≤ ctx.minBp ∨ ∃ follows, ctx.leftOf = some follows ∧ m ≤ follows

/-- A `?` on a pipeline, if the pipeline is read from more than its own binding power on and has
parentheses, keeps those. -/
theorem keeps_of_above (hp : u.isPipe = true) (ha : Above m ctx) (hm : Infix.pipe.leftBp < m)
    (hw : u.wrapped = true) : keeps u (ctx.beforeQuestion u) = true := by
  obtain ⟨stage, hs⟩ := Option.isSome_iff_exists.mp hp
  rcases beforeQuestion_cases ctx hs with ⟨-, -, hk⟩ | ⟨-, -, hk⟩
  · exact hk
  · rw [hk, keeps, hw, Bool.true_and]
    by_contra hn
    obtain ⟨hmn, hl, -⟩ := needsParens_eq_false.mp (Bool.not_eq_true _ ▸ hn)
    rw [topBp_of_isPipe hp] at hmn hl
    rcases ha with hle | ⟨follows, hf, hle⟩
    · omega
    · have := (hl follows hf).1
      omega

theorem above_beforeQuestion (hp : u.isPipe = true) (ha : Above m ctx)
    (hk : keeps u (ctx.beforeQuestion u) = false) : Above m (ctx.beforeQuestion u) := by
  obtain ⟨stage, hs⟩ := Option.isSome_iff_exists.mp hp
  rcases beforeQuestion_cases ctx hs with ⟨-, -, hy⟩ | ⟨-, hc, -⟩
  · rw [hy] at hk
    cases hk
  · rw [hc]
    exact ha

theorem bareSpine_question (h : t.isPipe = true) (ctx : Ctx) :
    bareSpine ctx (.question t) = .question t ::
      if keeps t (ctx.beforeQuestion t) then [] else bareSpine (ctx.beforeQuestion t) t := by
  rw [bareSpine, h]
  rfl

/-- All links on the spine of an operand bind as tightly as the operand is read, if no `?` on a
pipeline without parentheses is on it. -/
theorem le_bp_of_mem_spine (hm : m ≤ unaryBp) (hb : Builds 0 t) (ha : Above m ctx)
    (ht : m ≤ topBp t ∨ PipedQuestion t)
    (hno : Infix.pipe.leftBp < m →
      ∀ u, .question u ∈ bareSpine ctx t → u.isPipe = true → u.wrapped = true) {part : Expr}
    (hp : part ∈ bareSpine ctx t) (hl : topLink part = some link) : m ≤ link.bp := by
  induction t using Expr.leftInduct generalizing ctx with
  | paren t ih =>
    refine ih (builds_paren.mp hb) ha ?_ hno hp
    rcases ht with ht | ⟨u, hu, -⟩
    · exact Or.inl ht
    · cases hu
  | leaf t hlf =>
    rw [hlf.bareSpine_eq, mem_singleton] at hp
    rw [hp, hlf.topLink_eq] at hl
    cases hl
  | link t l link' hn ih =>
    have hbp : m ≤ link'.bp := hn.le_bp (ht.resolve_right hn.not_piped) hm
    rw [hn.bareSpine_eq] at hp hno
    rcases mem_cons.mp hp with rfl | hp
    · rw [hn.topLink_eq] at hl
      rw [← Option.some_inj.mp hl]
      exact hbp
    · split_ifs at hp hno with hk
      · simp at hp
      · have hk := Bool.not_eq_true _ ▸ hk
        exact ih (hn.builds hb).1 (Or.inr ⟨link'.bp, rfl, hbp⟩) (hn.le_topBp hb hk hbp)
          (fun hlt u hu => hno hlt u (mem_cons_of_mem _ hu)) hp
  | piped u hpp ih =>
    rcases mem_cons.mp hp with rfl | hp
    · rw [← Option.some_inj.mp hl]
      exact hm.trans (by decide)
    · split_ifs at hp with hk
      · simp at hp
      · have hnt := Bool.not_eq_true _ ▸ hk
        have hle : m ≤ Infix.pipe.leftBp := by
          by_contra hlt
          have hw := hno (Nat.not_le.mp hlt) u mem_cons_self hpp
          exact hk (keeps_of_above hpp ha (Nat.not_le.mp hlt) hw)
        refine ih (builds_question.mp hb).1 (above_beforeQuestion hpp ha hnt) ?_
          (fun hlt => absurd hle (Nat.not_le.mpr hlt)) hp
        rw [topBp_of_isPipe hpp]
        exact Or.inl hle

theorem mem_bareSpine (h : t.wrapped = false) (ctx : Ctx) : t ∈ bareSpine ctx t := by
  cases t with
  | paren t => simp [Expr.wrapped] at h
  | _ => exact mem_cons_self

/-- The left end of a stage is what `questionOnLeftSpine` says, where it looks. -/
theorem LinkNode.questionOnLeftSpine_eq (h : LinkNode t l link) (hq : link ≠ .question)
    (hp : link ≠ .infixed .pipe) :
    questionOnLeftSpine t = (!needsParens l (Ctx.top.left link.bp) && questionOnLeftSpine l) := by
  cases h with
  | infixed l op r =>
    cases op with
    | pipe => exact absurd rfl hp
    | _ => rfl
  | question _ => exact absurd rfl hq
  | _ => rfl

/-- No `?` is on the spine of a stage, if none on a pipeline is. -/
theorem question_not_mem_spine (hb : Builds 0 t) (hst : ctx.stage = true)
    (ht : Infix.pipe.rightBp ≤ topBp t ∨ PipedQuestion t)
    (hnn : (t.wrapped = false ∧ .question ∉ links t) ∨ questionOnLeftSpine t = false)
    (hno : ∀ part ∈ bareSpine ctx t, ¬ PipedQuestion part) {part : Expr}
    (hpr : part ∈ bareSpine ctx t) : topLink part ≠ some .question := by
  induction t using Expr.leftInduct generalizing ctx with
  | paren t ih =>
    refine ih (builds_paren.mp hb) hst ?_ ?_ hno hpr
    · rcases ht with ht | ⟨u, hu, -⟩
      · exact Or.inl ht
      · cases hu
    · rcases hnn with ⟨hbr, -⟩ | hs
      · simp [Expr.wrapped] at hbr
      · exact Or.inr hs
  | leaf t hl =>
    rw [hl.bareSpine_eq, mem_singleton] at hpr
    rw [hpr, hl.topLink_eq]
    nofun
  | link t l link hnd ih =>
    have hbp : Infix.pipe.rightBp ≤ link.bp :=
      hnd.le_bp (ht.resolve_right hnd.not_piped) (by decide)
    have hq : link ≠ .question := by
      rintro rfl
      rcases hnn with ⟨-, hm⟩ | hs
      · rw [hnd.links_eq] at hm
        exact hm mem_cons_self
      · cases hnd
        cases hs
    have hpp : link ≠ .infixed .pipe := by
      rintro rfl
      exact absurd hbp (by decide)
    rw [hnd.bareSpine_eq] at hpr hno
    rcases mem_cons.mp hpr with rfl | hpr
    · rw [hnd.topLink_eq]
      exact fun heq => hq (Option.some_inj.mp heq)
    · split_ifs at hpr hno with hk
      · simp at hpr
      · have hk := Bool.not_eq_true _ ▸ hk
        have hst' : (ctx.left link.bp).stage = true := hst
        refine ih (hnd.builds hb).1 hst' (hnd.le_topBp hb hk hbp) ?_
          (fun part hm => hno part (mem_cons_of_mem _ hm)) hpr
        -- in parentheses that are dropped, and else as in `t`
        cases hw : l.wrapped with
        | true =>
          have hn := (Link.keeps_eq_false hk).1
          rw [keeps, hw, Bool.true_and] at hn
          exact Or.inr ((needsParens_eq_false.mp hn).2.2 hst)
        | false =>
          rcases hnn with ⟨-, hm⟩ | hs
          · rw [hnd.links_eq] at hm
            exact Or.inl ⟨rfl, fun hm' => hm (mem_cons_of_mem _ hm')⟩
          · rw [hnd.questionOnLeftSpine_eq hq hpp, Bool.and_eq_false_iff] at hs
            rcases hs with hn | hs
            · have hp := hnd.piped_of_needs hb hk (by simpa using hn)
              exact absurd hp (hno l (mem_cons_of_mem _ (mem_bareSpine hw _)))
            · exact Or.inr hs
  | piped u hpp ih =>
    refine absurd ⟨u, rfl, hpp⟩ (hno (.question u) ?_)
    exact mem_bareSpine rfl ctx

/-- A pipeline without parentheses in front of a `?` is printed without. -/
theorem mem_spine_of_question (hp : u.isPipe = true) (hb : u.wrapped = false)
    (h : .question u ∈ bareSpine ctx t) : u ∈ bareSpine ctx t := by
  induction t using Expr.leftInduct generalizing ctx with
  | paren t ih => exact ih h
  | leaf t hl =>
    rw [hl.bareSpine_eq, mem_singleton] at h
    rw [← h] at hl
    cases hl
  | link t l link hn ih =>
    rw [hn.bareSpine_eq] at h ⊢
    rcases mem_cons.mp h with rfl | h
    · exact absurd ⟨u, rfl, hp⟩ hn.not_piped
    grind
  | piped t hp' ih =>
    rw [bareSpine_question hp'] at h ⊢
    rcases mem_cons.mp h with heq | h
    · obtain rfl := Expr.question.inj heq
      have hk : keeps u (ctx.beforeQuestion u) = false := by
        rw [keeps, hb, Bool.false_and]
      rw [hk]
      exact mem_cons_of_mem _ (mem_bareSpine hb _)
    grind

theorem leadsWithPipe_eq_false {parts : List Expr} :
    leadsWithPipe m parts = false ↔ (Infix.pipe.leftBp < m → ∀ u, .question u ∈ parts →
      u.isPipe = true → m ≠ Infix.pipe.rightBp ∧ u.wrapped = true) := by
  rw [leadsWithPipe, Bool.and_eq_false_iff, decide_eq_false_iff_not, any_eq_false]
  grind

/-- An operand is read to its end as it is printed if and only if its spine does not reach a `?` on
a pipeline that ends it. -/
theorem links_operand_iff (hm : ctx.minBp ≤ unaryBp)
    (hs : ctx.minBp = Infix.pipe.rightBp → ctx.stage = true) (hbl : Builds ctx.minBp t) :
    (∀ link ∈ links (printed ctx t), takes (.operand ctx.minBp) link = true) ↔
      leadsWithPipe ctx.minBp (spine ctx t) = false := by
  rw [leadsWithPipe_eq_false]
  constructor
  · intro hl hlt u hu hp
    have hq := hl .question (mem_links_printed.mpr ⟨_, hu, rfl⟩)
    refine ⟨by simpa [takes] using hq, ?_⟩
    by_contra hbr
    have hbr : u.wrapped = false := by simpa using hbr
    rw [spine] at hu
    split_ifs at hu with hk
    · simp at hu
    · have hmm : u ∈ spine ctx t := by
        rw [spine, if_neg hk]
        exact mem_spine_of_question hp hbr hu
      have hln : topLink u = some (.infixed .pipe) := by
        cases u with
        | infixed l op r =>
          cases op with
          | pipe => rfl
          | _ => cases hp
        | paren u => simp [Expr.wrapped] at hbr
        | _ => cases hp
      have ht := hl _ (mem_links_printed.mpr ⟨u, hmm, hln⟩)
      exact absurd hlt ((takes_operand (by rintro ⟨⟩)).mp ht)
  · intro hno link hln
    obtain ⟨part, hpr, htp⟩ := mem_links_printed.mp hln
    rw [spine] at hpr hno
    split_ifs at hpr hno with hk
    · simp at hpr
    · have hk := Bool.not_eq_true _ ▸ hk
      obtain ⟨hb, hl⟩ := builds_iff_links.mp hbl
      have hto := le_topBp_of_builds hk hbl hm
      have hle : ctx.minBp ≤ link.bp := le_bp_of_mem_spine hm hb (Or.inl le_rfl) hto
          (fun hlt u hu hp => (hno hlt u hu hp).2) hpr htp
      by_cases hq : link = .question
      · subst hq
        by_contra ht
        have heq : ctx.minBp = Infix.pipe.rightBp := by simpa [takes] using ht
        have hlt : Infix.pipe.leftBp < ctx.minBp := by rw [heq]; decide
        refine question_not_mem_spine hb (hs heq) (heq ▸ hto) ?_ ?_ hpr htp
        · rcases keeps_eq_false.mp hk with hbr | hn
          · grind
          · exact Or.inr ((needsParens_eq_false.mp hn).2.2 (hs heq))
        · rintro _ hmm ⟨u, rfl, hp⟩
          exact (hno hlt u hmm hp).1 heq
      · exact (takes_operand hq).mpr (Nat.not_lt.mpr hle)

end Silt.Format.Operators
