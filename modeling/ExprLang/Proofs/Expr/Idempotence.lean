import ExprLang.Command
import ExprLang.Proofs.Expr.Canonical

namespace ExprLang

namespace Expr

/-- The node of the same form at the start of the text, with other expressions below it. -/
def rebuild (f : Expr → Expr) : Expr → Expr
  | number _ x => number .start x
  | string _ s => string .start s
  | boolean _ b => boolean .start b
  | array _ items => array .start (items.map f)
  | var _ name => var .start name
  | define _ name init => define .start name (init.map f)
  | scope _ bindings body => scope .start (bindings.map fun b => ⟨b.name, b.init.map f⟩) (f body)
  | assign _ target value => assign .start (f target) (f value)
  | binary _ op left right => binary .start op (f left) (f right)
  | lambda _ name params body => lambda .start name params (f body)
  | call _ callee args => call .start (f callee) (args.map f)
  | method _ receiver name args => method .start receiver name (args.map f)
  | branch _ cond consequent chained alternative =>
    branch .start (f cond) (f consequent) (chained.map f) (alternative.map f)
  | block _ statements => block .start (statements.map f)

theorem erase_eq_rebuild (e : Expr) : e.erase = e.rebuild erase := by
  have hbinding : eraseBinding = fun b => ⟨b.name, b.init.map erase⟩ := by
    funext b
    rw [← name_eraseBinding, ← init_eraseBinding]
  cases e <;> simp only [erase, rebuild, eraseAll_eq_map, eraseOption_eq_map, eraseBindings_eq_map,
    hbinding]

theorem children_rebuild (f : Expr → Expr) (e : Expr) :
    (e.rebuild f).children = e.children.map f := by
  cases e with
  | define _ _ init => cases init <;> rfl
  | scope _ bindings body =>
    simp only [rebuild, children, List.map_append, List.filterMap_map, List.map_filterMap,
      List.map_cons, List.map_nil]
    rfl
  | branch _ _ _ chained alternative => cases chained <;> cases alternative <;> rfl
  | _ => rfl

/-- Whether an expression is a function without a name. -/
def isUnnamed : Expr → Bool
  | lambda _ none _ _ => true
  | _ => false

theorem isUnnamed_eq_false_iff {e : Expr} :
    e.isUnnamed = false ↔ ∀ p params body, e ≠ lambda p none params body := by
  cases e with
  | lambda q name params body => cases name <;> simp [isUnnamed]
  | _ => simp [isUnnamed]

end Expr

namespace Printer
open ExprLang.Expr

/-- Expressions with the same text, which need parentheses and a name in the same places. -/
structure Alike (e e' : Expr) : Prop where
  write_eq : ∀ depth rest, write depth e rest = write depth e' rest
  isOpenEnded_eq : e.isOpenEnded = e'.isOpenEnded
  isBranch_eq : e.isBranch = e'.isBranch
  isUnnamed_eq : e.isUnnamed = e'.isUnnamed

section Rebuild

variable {f : Expr → Expr} (depth : Nat)

theorem separated_map {α : Type} {separator : List Char} {writeItem : α → List Char → List Char}
    {g : α → α} {xs : List α} (h : ∀ x ∈ xs, ∀ rest, writeItem (g x) rest = writeItem x rest)
    (rest : List Char) :
    separated separator writeItem (xs.map g) rest = separated separator writeItem xs rest := by
  have hfollowing {xs : List α} (h : ∀ x ∈ xs, ∀ rest, writeItem (g x) rest = writeItem x rest) :
      following separator writeItem (xs.map g) rest = following separator writeItem xs rest := by
    induction xs with
    | nil => rfl
    | cons x xs ih =>
      obtain ⟨hx, hxs⟩ := List.forall_mem_cons.mp h
      rw [List.map_cons, following, following, ih hxs, hx]
  cases xs with
  | nil => rfl
  | cons x xs =>
    obtain ⟨hx, hxs⟩ := List.forall_mem_cons.mp h
    rw [List.map_cons, separated, separated, hfollowing hxs, hx]

theorem writeList_map {es : List Expr} (h : ∀ e ∈ es, Alike (f e) e) (rest : List Char) :
    writeList depth (es.map f) rest = writeList depth es rest := by
  rw [writeList_eq, writeList_eq]
  exact separated_map (fun e he => (h e he).write_eq depth) rest

theorem writeStatements_map {es : List Expr} (h : ∀ e ∈ es, Alike (f e) e) (rest : List Char) :
    writeStatements depth (es.map f) rest = writeStatements depth es rest := by
  by_cases hes : es = []
  · rw [hes]
    rfl
  · rw [writeStatements_eq _ _ hes, writeStatements_eq _ _ (by simpa using hes)]
    refine separated_map (fun e he rest => ?_) _
    rw [(h e he).write_eq]

theorem writeInit_map {e : Option Expr} (h : ∀ x ∈ e, Alike (f x) x) (rest : List Char) :
    writeInit depth (e.map f) rest = writeInit depth e rest := by
  cases e with
  | none => rfl
  | some x => exact congrArg (" = ".toList ++ ·) ((h x rfl).write_eq depth rest)

theorem writeBindings_map {bs : List (Binding Expr)} (h : ∀ b ∈ bs, ∀ x ∈ b.init, Alike (f x) x)
    (rest : List Char) :
    writeBindings depth (bs.map fun b => ⟨b.name, b.init.map f⟩) rest =
      writeBindings depth bs rest := by
  rw [writeBindings_eq, writeBindings_eq]
  refine separated_map (fun b hb rest => ?_) rest
  rw [writeBinding, writeInit_map depth (h b hb), writeBinding]

theorem writeChained_map {e : Option Expr} (h : ∀ x ∈ e, Alike (f x) x) (rest : List Char) :
    writeChained depth (e.map f) rest = writeChained depth e rest := by
  cases e with
  | none => rfl
  | some x => exact congrArg (" else ".toList ++ ·) ((h x rfl).write_eq depth rest)

theorem Alike.parenthesize_eq {e e' : Expr} (h : Alike e e') {needed needed' : Bool}
    (hneeded : needed = needed') (rest : List Char) :
    parenthesize needed (write depth e) rest = parenthesize needed' (write depth e') rest := by
  rw [hneeded, parenthesize, parenthesize, h.write_eq, h.write_eq]

theorem writeAlternative_map {e : Option Expr} (h : ∀ x ∈ e, Alike (f x) x) (rest : List Char) :
    writeAlternative depth (e.map f) rest = writeAlternative depth e rest := by
  cases e with
  | none => rfl
  | some x =>
    have halike := h x rfl
    exact congrArg (" else ".toList ++ ·) (halike.parenthesize_eq depth halike.isBranch_eq rest)

/-- A node is written as before when the expressions below it are. -/
theorem write_rebuild {e : Expr} (h : ∀ c ∈ e.children, Alike (f c) c) (rest : List Char) :
    write depth (e.rebuild f) rest = write depth e rest := by
  -- Where an expression below the node stands in parentheses, the new one does too.
  have henclosed (c : Expr) (hc : c ∈ e.children) (rest : List Char) :
      parenthesize (f c).isOpenEnded (write depth (f c)) rest =
        parenthesize c.isOpenEnded (write depth c) rest :=
    (h c hc).parenthesize_eq depth (h c hc).isOpenEnded_eq rest
  cases e with
  | number _ _ | string _ _ | boolean _ _ | var _ _ => rfl
  | array _ items =>
    have hitems := writeList_map depth h (']' :: rest)
    exact congrArg ('[' :: ·) hitems
  | define _ name init =>
    have hinit := writeInit_map depth (fun x hx => h x (Option.mem_toList.mpr hx)) rest
    exact congrArg ("let ".toList ++ name.toList ++ ·) hinit
  | scope _ bindings body =>
    have hbody := (h body (by simp [children])).write_eq depth rest
    have hbindings : ∀ b ∈ bindings, ∀ x ∈ b.init, Alike (f x) x := fun b hb x hx =>
      h x (List.mem_append_left _ (List.mem_filterMap.mpr ⟨b, hb, hx⟩))
    show "let (".toList ++ writeBindings depth _ (") ".toList ++ write depth (f body) rest) = _
    rw [hbody, writeBindings_map depth hbindings]
    rfl
  | assign _ target value =>
    show '(' :: parenthesize _ _ (" = ".toList ++ parenthesize _ _ (')' :: rest)) = _
    rw [henclosed target (by simp [children]), henclosed value (by simp [children])]
    rfl
  | binary _ op left right =>
    show '(' :: parenthesize _ _ (' ' :: op.symbol.toList ++ ' ' :: parenthesize _ _ _) = _
    rw [henclosed left (by simp [children]), henclosed right (by simp [children])]
    rfl
  | lambda _ name params body =>
    have hbody := (h body (by simp [children])).write_eq depth rest
    exact congrArg ("fn".toList ++ lambdaName name ++ '(' :: joined params ++ ") ".toList ++ ·)
      hbody
  | call _ callee args =>
    have hargs : ∀ c ∈ args, Alike (f c) c := fun c hc => h c (List.mem_cons_of_mem _ hc)
    show parenthesize _ _ ('(' :: writeList depth _ _) = _
    rw [writeList_map depth hargs, henclosed callee (by simp [children])]
    rfl
  | method _ receiver name args =>
    have hargs := writeList_map depth h (')' :: rest)
    exact congrArg (receiver.toList ++ '.' :: name.toList ++ '(' :: ·) hargs
  | branch _ cond consequent chained alternative =>
    have hchained : ∀ x ∈ chained, Alike (f x) x := fun x hx => h x (by simp_all [children])
    have halternative : ∀ x ∈ alternative, Alike (f x) x := fun x hx => h x (by simp_all [children])
    have hconsequent := h consequent (by simp [children])
    show "if (".toList ++ write depth (f cond) (") ".toList ++ parenthesize
      ((f consequent).isOpenEnded && _) _ (writeChained depth _ (if _ then rest else _))) = _
    rw [Option.isSome_map, Option.isSome_map, writeChained_map depth hchained,
      writeAlternative_map depth halternative, (h cond (by simp [children])).write_eq,
      hconsequent.parenthesize_eq depth (congrArg (· && _) hconsequent.isOpenEnded_eq)]
    rfl
  | block _ statements =>
    have hstatements : ∀ c ∈ statements, Alike (f c) c := h
    show (if (statements.map f).isEmpty then _ else _ ++ writeStatements (depth + 1) _ _) = _
    rw [List.isEmpty_map, writeStatements_map _ hstatements]
    rfl

theorem alike_rebuild {e : Expr} (h : ∀ c ∈ e.children, Alike (f c) c) : Alike (e.rebuild f) e where
  write_eq depth := write_rebuild depth h
  isOpenEnded_eq := by cases e <;> rfl
  isBranch_eq := by cases e <;> rfl
  isUnnamed_eq := by
    cases e with
    | lambda _ name _ _ => cases name <;> rfl
    | _ => rfl

end Rebuild

theorem alike_erase : ∀ e : Expr, Alike e.erase e :=
  Hereditary.all fun e h => by
    rw [erase_eq_rebuild]
    exact alike_rebuild h

theorem render_infinity {x : Float} (h : x.toBits.toNat = Number.infinityBits) :
    Number.Style.source.render x = "inf" := by
  have hparts : Number.parts x = .infinite false := by
    simp only [Number.parts, h]
    decide
  rw [Number.Style.render, hparts]
  rfl

theorem wellFormed_rebuild {f : Expr → Expr} {e : Expr} (h : e.WellFormed)
    (hf : ∀ c ∈ e.children, Alike (f c) c) : (e.rebuild f).WellFormed := by
  cases e with
  | define _ name init =>
    refine ⟨h.1, ?_⟩
    intro x hx
    obtain ⟨y, hy, rfl⟩ := Option.map_eq_some_iff.mp hx
    rw [← isUnnamed_eq_false_iff, (hf y (Option.mem_toList.mpr hy)).isUnnamed_eq]
    exact isUnnamed_eq_false_iff.mpr (h.2 y hy)
  | scope _ bindings body => exact List.forall_mem_map.mpr h
  | branch _ cond consequent chained alternative =>
    refine ⟨h.1.imp (fun h => by rw [h]; rfl) (fun h => by rw [h]; rfl), ?_⟩
    intro x hx
    obtain ⟨y, hy, rfl⟩ := Option.map_eq_some_iff.mp hx
    rw [(hf y (by simp [children, hy])).isBranch_eq]
    exact h.2 y hy
  | block _ statements =>
    show 2 ≤ (statements.map f).length
    rw [List.length_map]
    exact h
  | _ => exact h

/-- What can be parsed is written like a canonical tree, which has a name in place of infinity. -/
theorem exists_canonical_alike {e : Expr} (h : Everywhere Legible e) :
    ∃ e', e'.Canonical ∧ Alike e' e := by
  have hinf : IsName "inf" := (isName_iff "inf").mpr (by decide)
  induction h with
  | @node e here _ ih =>
    by_cases hinfinite : ∃ p x, e = .number p x ∧ x.toBits.toNat = Number.infinityBits
    · obtain ⟨p, x, rfl, hx⟩ := hinfinite
      refine ⟨.var .start "inf", .leaf hinf rfl, ⟨fun depth rest => ?_, rfl, rfl, rfl⟩⟩
      exact congrArg (·.toList ++ rest) (render_infinity hx).symm
    · have hwell : e.WellFormed := by
        cases e with
        | number p x => exact Nat.lt_of_le_of_ne here fun hx => hinfinite ⟨p, x, rfl, hx⟩
        | _ => exact here
      choose! f hf using ih
      refine ⟨e.rebuild f, .node (wellFormed_rebuild hwell fun c hc => (hf c hc).2) ?_,
        alike_rebuild fun c hc => (hf c hc).2⟩
      rw [children_rebuild]
      exact List.forall_mem_map.mpr fun c hc => (hf c hc).1

theorem writeProgram_map {f : Expr → Expr} {es : List Expr} (h : ∀ e ∈ es, Alike (f e) e) :
    writeProgram (es.map f) = writeProgram es := by
  induction es with
  | nil => rfl
  | cons e es ih =>
    obtain ⟨he, hes⟩ := List.forall_mem_cons.mp h
    rw [List.map_cons, writeProgram, writeProgram, ih hes, he.write_eq]

end Printer

theorem printProgram_of_erase {p : Position} {statements : List Expr} {e : Expr}
    (h : e.erase = (Expr.block p statements).erase) :
    e.printProgram = (Expr.block p statements).printProgram := by
  cases e with
  | block q statements' =>
    rw [Expr.erase, Expr.erase, Expr.eraseAll_eq_map, Expr.eraseAll_eq_map] at h
    have hmap := (Expr.block.inj h).2
    rw [Expr.printProgram, Expr.printProgram,
      ← Printer.writeProgram_map fun e (_ : e ∈ statements') => Printer.alike_erase e, hmap,
      Printer.writeProgram_map fun e _ => Printer.alike_erase e]
  | _ => cases h

/-- A formatted text is its own formatted form. -/
theorem formatReport_formatReport {source text : String}
    (h : Command.formatReport source = .ok text) : Command.formatReport text = .ok text := by
  unfold Command.formatReport at h
  split at h
  · cases h
  · rename_i e hparse
    cases h
    obtain ⟨statements, rfl, hlegible⟩ := legible_of_parseWith hparse
    have hexists : ∀ s ∈ statements, ∃ s', s'.Canonical ∧ Printer.Alike s' s :=
      fun s hs => Printer.exists_canonical_alike (hlegible s hs)
    choose! f hf using hexists
    have hprinted : (Expr.block .start (statements.map f)).printProgram =
        (Expr.block .start statements).printProgram := by
      rw [Expr.printProgram, Expr.printProgram,
        Printer.writeProgram_map fun s hs => (hf s hs).2]
    obtain ⟨t, ht, herase⟩ := parse_printProgram .start
      (List.forall_mem_map.mpr fun s hs => (hf s hs).1)
    have hagain := printProgram_of_erase herase
    rw [hprinted] at ht hagain
    unfold Command.formatReport
    rw [ht, ← hagain]

/-- A conditional whose parts are laid out over several lines. -/
theorem formatReport_formatReport_layout :
    Command.formatReport "if a \x7bb; c = 2\x7d else (fn f(x) x)(1.50)" =
        .ok "if (a) \x7b\n    b;\n    (c = 2)\n\x7d else (fn f(x) x)(1.5);\n" ∧
      Command.formatReport "if (a) \x7b\n    b;\n    (c = 2)\n\x7d else (fn f(x) x)(1.5);\n" =
        .ok "if (a) \x7b\n    b;\n    (c = 2)\n\x7d else (fn f(x) x)(1.5);\n" := by
  have hformat : Command.formatReport "if a \x7bb; c = 2\x7d else (fn f(x) x)(1.50)" =
      .ok "if (a) \x7b\n    b;\n    (c = 2)\n\x7d else (fn f(x) x)(1.5);\n" := by
    decide +kernel
  exact ⟨hformat, formatReport_formatReport hformat⟩

end ExprLang
