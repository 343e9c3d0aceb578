import ExprLang.Proofs.Expr.Soundness
import ExprLang.Proofs.Token.Counting

namespace ExprLang

namespace Expr

/-- A node of a tree. -/
inductive Sub (e : Expr) : Expr → Prop
  | self : Sub e e
  | under {c top : Expr} (hc : c ∈ top.children) (h : Sub e c) : Sub e top

def Inner (e top : Expr) : Prop := ∃ c ∈ top.children, e.Sub c

theorem Sub.child {e c top : Expr} (h : e.Sub top) (hc : c ∈ e.children) : c.Inner top := by
  induction h with
  | self => exact ⟨c, hc, .self⟩
  | under htop _ ih =>
    obtain ⟨d, hd, hsub⟩ := ih
    exact ⟨_, htop, .under hd hsub⟩

theorem Inner.sub {e top : Expr} (h : e.Inner top) : e.Sub top := by
  obtain ⟨c, hc, hsub⟩ := h
  exact .under hc hsub

theorem Sub.eq_or_inner {e top : Expr} (h : e.Sub top) : e = top ∨ e.Inner top := by
  cases h with
  | self => exact .inl rfl
  | under hc hsub => exact .inr ⟨_, hc, hsub⟩

/-- A tree among tokens. Its root is at one of them, and the trees below it are among this token and
the ones after it. -/
inductive Among : List Token → Expr → Prop
  | node {ts us : List Token} {t : Token} {e : Expr} (hts : t :: us <:+ ts)
      (hposition : e.position = t.position) (hbelow : ∀ c ∈ e.children, Among (t :: us) c) :
      Among ts e

/-- A tree among tokens whose root is not at one of those that are left. -/
inductive Stands (ts rest : List Token) (e : Expr) : Prop
  | intro {us : List Token} {t : Token} (hts : t :: us <:+ ts) (hposition : e.position = t.position)
      (hbelow : ∀ c ∈ e.children, c.Among (t :: us)) (hrest : rest <:+ t :: us)

/-- Operands that stand one after the other. -/
inductive AllStand (rest : List Token) : List Token → List Link → Prop
  | nil {ts : List Token} (hrest : rest <:+ ts) : AllStand rest ts []
  | cons {ts mid : List Token} {c : Connective} {first : Expr} {more : List Link}
      (hfirst : first.Stands ts mid) (hmore : AllStand rest mid more) :
      AllStand rest ts ((c, first) :: more)

variable {ts us mid rest rest' : List Token} {t : Token} {d e c left right callee : Expr}

namespace Among

theorem mono (h : e.Among ts) (hts : ts <:+ us) : e.Among us := by
  cases h with
  | node hhere hposition hbelow => exact .node (hhere.trans hts) hposition hbelow

theorem token (h : e.Among ts) : ∃ t ∈ ts, t.position = e.position := by
  cases h with
  | node hts hposition _ => exact ⟨_, hts.subset List.mem_cons_self, hposition.symm⟩

theorem child (h : e.Among ts) (hc : c ∈ e.children) : c.Among ts := by
  cases h with
  | node hts _ hbelow => exact (hbelow c hc).mono hts

theorem sub (h : e.Among ts) (hsub : d.Sub e) : d.Among ts := by
  induction hsub with
  | self => exact h
  | under hc _ ih => exact ih (h.child hc)

theorem nameLambda (name : String) (h : e.Among ts) : (e.nameLambda name).Among ts := by
  cases h with
  | node hts hposition hbelow =>
    cases e with
    | lambda _ inner => cases inner <;> exact .node hts hposition hbelow
    | _ => exact .node hts hposition hbelow

end Among

namespace Stands

theorem among (h : e.Stands ts rest) : e.Among ts := by
  obtain ⟨hts, hposition, hbelow, -⟩ := h
  exact .node hts hposition hbelow

theorem suffix (h : e.Stands ts rest) : rest <:+ ts := by
  obtain ⟨hts, -, -, hrest⟩ := h
  exact hrest.trans hts

theorem mono (h : e.Stands ts rest) (hts : ts <:+ us) (hrest : rest' <:+ rest) :
    e.Stands us rest' := by
  obtain ⟨hhere, hposition, hbelow, hus⟩ := h
  exact ⟨hhere.trans hts, hposition, hbelow, hrest.trans hus⟩

theorem node (hposition : e.position = t.position) (hbelow : ∀ c ∈ e.children, c.Among (t :: us))
    (hrest : rest <:+ t :: us) : e.Stands (t :: us) rest :=
  ⟨List.suffix_refl _, hposition, hbelow, hrest⟩

theorem around (h : left.Stands ts mid) (hposition : e.position = left.position)
    (hbelow : ∀ c ∈ e.children, c = left ∨ c.Among mid) (hrest : rest <:+ mid) :
    e.Stands ts rest := by
  obtain ⟨hts, hleft, hinner, hmid⟩ := h
  refine ⟨hts, hposition.trans hleft, fun c hc => ?_, hrest.trans hmid⟩
  rcases hbelow c hc with rfl | hamong
  · exact .node (List.suffix_refl _) hleft hinner
  · exact hamong.mono hmid

theorem join (c : Connective) (hleft : left.Stands ts mid) (hright : right.Stands mid rest) :
    (join c left right).Stands ts rest := by
  have hall : ∀ e ∈ [left, right], e = left ∨ e.Among mid :=
    List.forall_mem_cons.mpr ⟨.inl rfl, List.forall_mem_singleton.mpr (.inr hright.among)⟩
  cases c with
  | assign => exact hleft.around rfl hall hright.suffix
  | binary op => exact hleft.around rfl hall hright.suffix

theorem applied {args : List (List Expr)} (h : callee.Stands ts mid)
    (hargs : ∀ as ∈ args, ∀ e ∈ as, e.Among mid) : (callee.applied args).Stands ts mid := by
  induction args generalizing callee with
  | nil => exact h
  | cons as args ih =>
    obtain ⟨has, hargs⟩ := List.forall_mem_cons.mp hargs
    have hcall : (call callee.position callee as).Stands ts mid :=
      h.around rfl (List.forall_mem_cons.mpr ⟨.inl rfl, fun e he => .inr (has e he)⟩)
        (List.suffix_refl _)
    exact ih hcall hargs

end Stands

namespace AllStand

variable {links : List Link}

theorem suffix (h : AllStand rest ts links) : rest <:+ ts := by
  induction h with
  | nil hrest => exact hrest
  | cons hfirst _ ih => exact ih.trans hfirst.suffix

theorem mono (h : AllStand rest ts links) (hts : ts <:+ us) (hrest : rest' <:+ rest) :
    AllStand rest' us links := by
  induction h generalizing us with
  | nil hmid => exact .nil (hrest.trans (hmid.trans hts))
  | cons hfirst _ ih => exact .cons (hfirst.mono hts (List.suffix_refl _)) (ih (List.suffix_refl _))

end AllStand

/-- What an operand takes in stands behind it, and what it does not take in stands behind that. -/
theorem stands_taken {ts mid : List Token} {left : Expr} (bound : Nat) {links : List Link}
    (hleft : left.Stands ts mid) (hlinks : AllStand rest mid links) :
    ∃ mid, (taken left bound links).Stands ts mid ∧
      AllStand rest mid (untaken left bound links) := by
  match links, hlinks with
  | [], hlinks =>
    rw [taken_nil, untaken_nil]
    exact ⟨mid, hleft, hlinks⟩
  | (c, first) :: more, .cons hfirst hmore =>
    by_cases h : c.precedence ≤ bound
    · rw [taken_stop _ _ _ h, untaken_stop _ _ _ h]
      exact ⟨mid, hleft, .cons hfirst hmore⟩
    · have h := Nat.lt_of_not_le h
      have hlength := length_untaken_le first c.rightBound more
      obtain ⟨_, hright, houter⟩ := stands_taken c.rightBound hfirst hmore
      rw [taken_join _ _ _ h, untaken_join _ _ _ h]
      exact stands_taken bound (hleft.join c hright) houter
termination_by links.length
decreasing_by all_goals (simp only [List.length_cons]; omega)

end Expr

namespace Parser

/-- All trees that a rule has made are among the tokens it has read. -/
def Rule.Stands (ts rest : List Token) : (r : Rule) → r.Tree → Prop
  | .expression | .operand | .atom | .conditional | .condition => Expr.Stands ts rest
  | .links => Expr.AllStand rest ts
  | .arguments => fun args => ∀ as ∈ args, ∀ e ∈ as, Expr.Among ts e
  | .binding => fun b => ∀ e ∈ b.init, Expr.Among ts e
  | .param => fun _ => True
  | .list _ item | .more _ item => fun xs => ∀ x ∈ xs, item.Stands ts rest x

variable {ts us rest rest' : List Token} {t : Token} {r : Rule} {x : r.Tree}

theorem Rule.Stands.mono (h : r.Stands ts rest x) (hts : ts <:+ us) (hrest : rest' <:+ rest) :
    r.Stands us rest' x := by
  induction r with
  | expression | operand | atom | conditional | condition => exact Expr.Stands.mono h hts hrest
  | links => exact Expr.AllStand.mono h hts hrest
  | arguments => exact fun args hargs e he => (h args hargs e he).mono hts
  | binding => exact fun e he => (h e he).mono hts
  | param => exact h
  | list _ _ ih | more _ _ ih => exact fun x hx => ih (h x hx)

theorem stands_blockOf {es : List Expr} (hes : ∀ e ∈ es, e.Stands ts rest) (hrest : rest <:+ ts) :
    (blockOf t.position es).Stands (t :: ts) rest := by
  have hts : ts <:+ t :: ts := List.suffix_cons t ts
  match es with
  | [] => exact .node rfl (List.forall_mem_nil _) (hrest.trans hts)
  | [e] => exact (hes e (List.mem_singleton_self e)).mono hts (List.suffix_refl _)
  | _ :: _ :: _ => exact .node rfl (fun e he => (hes e he).among.mono hts) (hrest.trans hts)

theorem stands_loopOf {bindings : List (Binding Expr)} {body : Expr} (name : String)
    (hbindings : ∀ b ∈ bindings, ∀ e ∈ b.init, e.Among (t :: ts)) (hbody : body.Among (t :: ts))
    (hrest : rest <:+ t :: ts) : (loopOf t.position name bindings body).Stands (t :: ts) rest := by
  have hlambda :
      (Expr.lambda t.position (some name) (bindings.map (·.name)) body).Among (t :: ts) :=
    .node (List.suffix_refl _) rfl (List.forall_mem_singleton.mpr hbody)
  refine .node rfl
    (List.forall_mem_cons.mpr ⟨hlambda, List.forall_mem_map.mpr fun b hb => ?_⟩) hrest
  cases hinit : b.init with
  | none => exact .node (List.suffix_refl _) rfl (List.forall_mem_nil _)
  | some e => exact hbindings b hb e hinit

variable {fin : TokenStream.Ending}

/-- The rules give nodes the places of tokens, and read a node before the nodes below it. -/
theorem Reads.stands (h : Reads fin r ts x rest) : r.Stands ts rest x := by
  have hcons (t : Token) (ts : List Token) : ts <:+ t :: ts := List.suffix_cons t ts
  induction h with
  | expression _ _ _ ihleft ihlinks =>
    obtain ⟨mid, he, hlinks⟩ := Expr.stands_taken 0 ihleft ihlinks
    exact he.mono (List.suffix_refl _) hlinks.suffix
  | links_nil => exact .nil (List.suffix_refl _)
  | links_cons _ _ _ _ ihfirst ihmore =>
    exact .cons (Expr.Stands.mono ihfirst (hcons _ _) (List.suffix_refl _)) ihmore
  | operand _ hargs iha ihargs =>
    exact (Expr.Stands.applied iha ihargs).mono (List.suffix_refl _) hargs.suffix
  | arguments_nil _ => exact List.forall_mem_nil _
  | arguments_cons _ hargs _ ihargs ihmore =>
    refine List.forall_mem_cons.mpr ⟨fun e he => (ihargs e he).among.mono (hcons _ _), ?_⟩
    exact fun as has e he => (ihmore as has e he).mono (hargs.suffix.trans (hcons _ _))
  | number _ _ | string _ | boolean _ | var _ _ =>
    exact .node rfl (List.forall_mem_nil _) (hcons _ _)
  | @method t dot name o ts rest _ _ _ _ _ hargs ih =>
    have hts : ts <:+ t :: dot :: name :: o :: ts := List.suffix_append [t, dot, name, o] ts
    exact .node rfl (fun e he => (ih e he).among.mono hts) (hargs.suffix.trans hts)
  | group _ _ _ ih => exact Expr.Stands.mono ih (hcons _ _) (hcons _ _)
  | array _ hitems ih =>
    exact .node rfl (fun e he => (ih e he).among.mono (hcons _ _)) (hitems.suffix.trans (hcons _ _))
  | block _ hitems ih => exact stands_blockOf ih hitems.suffix
  | @lambda t _ ts _ ts₂ _ _ _ _ _ hname _ hparams hbody _ ihbody =>
    have hts : ts₂ <:+ t :: ts :=
      hparams.suffix.trans ((hcons _ _).trans (hname.suffix.trans (hcons _ _)))
    exact .node rfl (List.forall_mem_singleton.mpr ((Expr.Stands.among ihbody).mono hts))
      (hbody.suffix.trans hts)
  | @scope t o ts ts₁ _ _ _ _ _ hbindings hbody ihbindings ihbody =>
    have hts : ts <:+ t :: o :: ts := List.suffix_append [t, o] ts
    refine .node rfl (fun c hc => ?_) (hbody.suffix.trans (hbindings.suffix.trans hts))
    rcases List.mem_append.mp hc with hc | hc
    · obtain ⟨b, hb, hinit⟩ := List.mem_filterMap.mp hc
      exact (ihbindings b hb c hinit).mono hts
    · rw [List.mem_singleton.mp hc]
      exact (Expr.Stands.among ihbody).mono (hbindings.suffix.trans hts)
  | @define t name rest _ _ _ _ =>
    exact .node rfl (List.forall_mem_nil _) (List.suffix_append [t, name] rest)
  | @define_init t name eq ts _ _ _ _ _ hinit ih =>
    have hts : ts <:+ t :: name :: eq :: ts := List.suffix_append [t, name, eq] ts
    have hinner := ((Expr.Stands.among ih).mono hts).nameLambda name.text
    exact .node rfl (List.forall_mem_singleton.mpr hinner) (hinit.suffix.trans hts)
  | @definition t name o eq ts ts₁ _ _ _ _ _ _ hparams _ _ hbody _ ihbody =>
    have hts : ts₁ <:+ t :: name :: o :: ts :=
      (hcons eq ts₁).trans (hparams.suffix.trans (List.suffix_append [t, name, o] ts))
    refine .node rfl (List.forall_mem_singleton.mpr ?_) (hbody.suffix.trans hts)
    exact .node (List.suffix_refl _) rfl
      (List.forall_mem_singleton.mpr ((Expr.Stands.among ihbody).mono hts))
  | @loop t name o ts ts₁ _ _ _ _ _ _ hbindings _ hbody ihbindings ihbody =>
    have hts : ts <:+ t :: name :: o :: ts := List.suffix_append [t, name, o] ts
    have hts₁ := hbindings.suffix.trans hts
    exact stands_loopOf _ (fun b hb e he => (ihbindings b hb e he).mono hts)
      ((Expr.Stands.among ihbody).mono hts₁) (hbody.suffix.trans hts₁)
  | branch _ ih => exact ih
  | @only_then t ts _ ts₂ _ _ _ _ _ hcond hword he _ ihcond ihe =>
    have hts : ts₂ <:+ t :: ts := hword.suffix.trans (hcond.suffix.trans (hcons _ _))
    have hall := List.forall_mem_cons.mpr ⟨(Expr.Stands.among ihcond).mono (hcons _ _),
      List.forall_mem_singleton.mpr ((Expr.Stands.among ihe).mono hts)⟩
    exact .node rfl hall (he.suffix.trans hts)
  | @else_if t els ts ts₁ ts₂ ts₃ _ _ _ _ _ _ hcond hword he _ hlast ihcond ihe ihlast
  | @or_else t els ts ts₁ ts₂ ts₃ _ _ _ _ _ _ hcond hword he _ _ hlast ihcond ihe ihlast =>
    have hts : ts₂ <:+ t :: ts := hword.suffix.trans (hcond.suffix.trans (hcons _ _))
    have hts₃ : ts₃ <:+ t :: ts := (hcons _ _).trans (he.suffix.trans hts)
    have hall := List.forall_mem_cons.mpr ⟨(Expr.Stands.among ihcond).mono (hcons _ _),
      List.forall_mem_cons.mpr ⟨(Expr.Stands.among ihe).mono hts,
        List.forall_mem_singleton.mpr ((Expr.Stands.among ihlast).mono hts₃)⟩⟩
    exact .node rfl hall (hlast.suffix.trans hts₃)
  | bare _ _ ih => exact ih
  | listed _ _ ih =>
    exact Expr.Stands.mono (List.forall_mem_cons.mp ih).1 (hcons _ _) (List.suffix_refl _)
  | binding _ _ =>
    intro e he
    cases he
  | @binding_init name eq ts _ _ _ _ _ ih =>
    intro e he
    cases he
    exact (Expr.Stands.among ih).mono (List.suffix_append [name, eq] ts)
  | param _ => exact trivial
  | list_nil _ | more_nil _ | more_last _ _ => exact List.forall_mem_nil _
  | list_cons _ hitem hmore ihitem ihmore =>
    refine List.forall_mem_cons.mpr ⟨ihitem.mono (List.suffix_refl _) hmore.suffix, ?_⟩
    exact fun x hx => (ihmore x hx).mono hitem.suffix (List.suffix_refl _)
  | more_cons _ _ hitem hmore ihitem ihmore =>
    refine List.forall_mem_cons.mpr ⟨ihitem.mono (hcons _ _) hmore.suffix, ?_⟩
    exact fun x hx => (ihmore x hx).mono (hitem.suffix.trans (hcons _ _)) (List.suffix_refl _)

theorem ReadsAll.among {es : List Expr} (h : ReadsAll fin ts es) : ∀ e ∈ es, e.Among ts := by
  induction h with
  | nil _ => exact List.forall_mem_nil _
  | last he _ => exact List.forall_mem_singleton.mpr (Expr.Stands.among he.stands)
  | cons he _ _ ih =>
    refine List.forall_mem_cons.mpr ⟨Expr.Stands.among he.stands, fun e hmem => ?_⟩
    exact (ih e hmem).mono ((List.suffix_cons _ _).trans he.suffix)

end Parser

end ExprLang
