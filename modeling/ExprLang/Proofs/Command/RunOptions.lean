import ExprLang.Command.RunOptions
import ExprLang.Proofs.Number.Bits

namespace ExprLang.RunOptions

/-- A text that is a depth: decimal digits, perhaps after a plus sign, for a number of 64 bits. -/
def IsDepth (text : String) (n : Nat) : Prop :=
  ∃ sign digits, text.toList = sign ++ digits ∧ (sign = [] ∨ sign = ['+']) ∧ digits ≠ [] ∧
    (∀ d ∈ digits, Number.isDecimalDigit d = true) ∧ Number.ofDigits digits = n ∧ n < 2 ^ 64

/-- The argument that sets the depth to a text. -/
def depthArgument (text : String) : String := "--max-depth=" ++ text

/-- An argument that is a path: the lone dash, or one that does not start with a dash. -/
def isPath (a : String) : Bool := a = "-" || a.toList.head? ≠ some '-'

/-- An argument that is refused, and what is said about it. -/
inductive Refused : String → String → Prop
  | depth {text : String} (h : ∀ n, ¬ IsDepth text n) :
      Refused (depthArgument text) ("invalid --max-depth value '" ++ text ++ "'")
  | unknown {a : String} (hpath : isPath a = false) (htime : a ≠ "--time")
      (hdepth : ∀ text, a ≠ depthArgument text) : Refused a ("unknown option '" ++ a ++ "'")

def IsRefused (a : String) : Prop := ∃ message, Refused a message

/-- The depth that the last of the arguments for it sets, if there is one. -/
inductive LastDepth (as : List String) : Option Nat → Prop
  | none (h : ∀ text, depthArgument text ∉ as) : LastDepth as none
  | some {before after : List String} {text : String} {n : Nat}
      (has : as = before ++ depthArgument text :: after) (hn : IsDepth text n)
      (hlast : ∀ text, depthArgument text ∉ after) : LastDepth as (some n)

section Arguments

variable {a text text' message message' : String} {n : Nat}

theorem depthFlag_eq :
    depthFlag = ['-', '-', 'm', 'a', 'x', '-', 'd', 'e', 'p', 't', 'h', '='] := by decide

theorem toList_depthArgument (text : String) :
    (depthArgument text).toList = depthFlag ++ text.toList := by
  unfold depthArgument depthFlag
  rw [String.toList_append]

theorem depthArgument_inj (h : depthArgument text = depthArgument text') : text = text' := by
  have hlist := congrArg String.toList h
  rw [toList_depthArgument, toList_depthArgument] at hlist
  exact String.toList_inj.mp (List.append_cancel_left hlist)

theorem exists_depthArgument_iff :
    (∃ text, a = depthArgument text) ↔ depthFlag.isPrefixOf a.toList = true := by
  rw [List.isPrefixOf_iff_prefix]
  constructor
  · rintro ⟨text, rfl⟩
    exact ⟨text.toList, (toList_depthArgument text).symm⟩
  · rintro ⟨value, hvalue⟩
    refine ⟨String.ofList value, String.toList_inj.mp ?_⟩
    rw [toList_depthArgument, String.toList_ofList, hvalue]

theorem isPath_depthArgument (text : String) : isPath (depthArgument text) = false := by
  have hlone : depthArgument text ≠ "-" := fun h => by
    have hlist := congrArg String.toList h
    rw [toList_depthArgument, depthFlag_eq] at hlist
    simp at hlist
  simp [isPath, hlone, toList_depthArgument, depthFlag_eq]

theorem depthArgument_ne_time (text : String) : depthArgument text ≠ "--time" := fun h => by
  have hlist := congrArg String.toList h
  rw [toList_depthArgument, depthFlag_eq] at hlist
  simp at hlist

theorem isPath_time : isPath "--time" = false := by decide

theorem depth?_eq_some_iff : depth? text.toList = some n ↔ IsDepth text n := by
  have hdigits (digits : List Char) :
      (if digits.isEmpty || !digits.all Number.isDecimalDigit then none
        else if Number.ofDigits digits < Number.twoTo 64 then some (Number.ofDigits digits)
        else none) = some n ↔
      digits ≠ [] ∧ (∀ d ∈ digits, Number.isDecimalDigit d = true) ∧
        Number.ofDigits digits = n ∧ n < 2 ^ 64 := by
    rw [Number.twoTo_eq]
    grind
  unfold depth? IsDepth
  dsimp only
  rw [hdigits]
  split
  · next more heq =>
    constructor
    · exact fun h => ⟨['+'], more, heq, .inr rfl, h⟩
    · rintro ⟨sign, digits, hsplit, rfl | rfl, h⟩
      · -- A plus sign is no digit.
        rw [List.nil_append, heq] at hsplit
        exact absurd (h.2.1 '+' (hsplit ▸ List.mem_cons_self)) (by decide)
      · rw [heq] at hsplit
        cases hsplit
        exact h
  · next hsign =>
    constructor
    · exact fun h => ⟨[], text.toList, rfl, .inl rfl, h⟩
    · rintro ⟨sign, digits, hsplit, rfl | rfl, h⟩
      · rwa [hsplit]
      · exact absurd hsplit (hsign digits)

theorem not_isRefused_of_isDepth (h : IsDepth text n) : ¬ IsRefused (depthArgument text) := by
  rintro ⟨message, hrefused⟩
  generalize ha : depthArgument text = a at hrefused
  cases hrefused with
  | depth hnot => exact hnot n (depthArgument_inj ha ▸ h)
  | unknown _ _ hdepth => exact hdepth text ha.symm

theorem not_isRefused_time : ¬ IsRefused "--time" := by
  rintro ⟨message, hrefused⟩
  generalize ha : "--time" = a at hrefused
  cases hrefused with
  | depth _ => exact depthArgument_ne_time _ ha.symm
  | unknown _ htime _ => exact htime ha.symm

theorem not_isRefused_of_isPath (h : isPath a = true) : ¬ IsRefused a := by
  rintro ⟨message, hrefused⟩
  cases hrefused with
  | depth _ =>
    rw [isPath_depthArgument] at h
    cases h
  | unknown hpath _ _ =>
    rw [hpath] at h
    cases h

theorem Refused.message_eq (h : Refused a message) (h' : Refused a message') :
    message = message' := by
  cases h with
  | @depth text _ =>
    generalize ha : depthArgument text = a at h'
    cases h' with
    | depth _ => rw [depthArgument_inj ha]
    | unknown _ _ hdepth => exact absurd ha.symm (hdepth text)
  | unknown _ _ hdepth =>
    cases h' with
    | depth _ => exact absurd rfl (hdepth _)
    | unknown _ _ _ => rfl

/-- All that taking an argument into account can come to. -/
inductive Adds (o : RunOptions) (a : String) : Except Fault RunOptions → Prop
  | depth {text : String} {n : Nat} (ha : a = depthArgument text) (hn : IsDepth text n) :
      Adds o a (.ok ⟨some n, o.time, o.path⟩)
  | time (ha : a = "--time") : Adds o a (.ok ⟨o.limit, true, o.path⟩)
  | path (ha : isPath a = true) : Adds o a (.ok ⟨o.limit, o.time, o.path.or (some a)⟩)
  | refused {fault : Fault} (h : Refused a fault.message) : Adds o a (.error fault)

theorem adds (o : RunOptions) (a : String) : Adds o a (add o a) := by
  unfold add
  dsimp only
  by_cases hflag : depthFlag.isPrefixOf a.toList = true
  · obtain ⟨text, rfl⟩ := exists_depthArgument_iff.mpr hflag
    have hvalue : (depthArgument text).toList.drop depthFlag.length = text.toList := by
      rw [toList_depthArgument, List.drop_left]
    rw [if_pos hflag, hvalue]
    cases hdepth : depth? text.toList with
    | some n => exact .depth rfl (depth?_eq_some_iff.mp hdepth)
    | none =>
      refine .refused ?_
      rw [String.ofList_toList]
      refine .depth fun n hn => ?_
      rw [depth?_eq_some_iff.mpr hn] at hdepth
      cases hdepth
  rw [if_neg hflag]
  by_cases htime : a = "--time"
  · rw [if_pos htime]
    exact .time htime
  rw [if_neg htime]
  change Adds o a (if isPath a = true then _ else _)
  by_cases hpath : isPath a = true
  · rw [if_pos hpath]
    exact .path hpath
  · rw [if_neg hpath]
    refine .refused (.unknown (eq_false_of_ne_true hpath) htime fun text ha => ?_)
    exact hflag (exists_depthArgument_iff.mp ⟨text, ha⟩)

end Arguments

theorem eq_of_first {α : Type} {P : α → Prop} {before before' after after' : List α} {x x' : α}
    (h : before ++ x :: after = before' ++ x' :: after') (hbefore : ∀ y ∈ before, ¬ P y) (hx : P x)
    (hbefore' : ∀ y ∈ before', ¬ P y) (hx' : P x') : x = x' := by
  induction before generalizing before' with
  | nil =>
    cases before' with
    | nil => exact (List.cons.inj h).1
    | cons y before' => exact absurd ((List.cons.inj h).1 ▸ hx) (hbefore' y List.mem_cons_self)
  | cons y before ih =>
    rw [List.forall_mem_cons] at hbefore
    cases before' with
    | nil => exact absurd ((List.cons.inj h).1 ▸ hx') hbefore.1
    | cons y' before' =>
      exact ih (List.cons.inj h).2 hbefore.2 fun z hz => hbefore' z (List.mem_cons_of_mem _ hz)

section Lists

variable {as as' : List String} {a message : String} {limit limit' : Option Nat}

theorem LastDepth.eq (h : LastDepth as limit) (h' : LastDepth as limit') : limit = limit' := by
  have hmem (before after : List String) (text : String) :
      depthArgument text ∈ before ++ depthArgument text :: after :=
    List.mem_append_right _ List.mem_cons_self
  cases h with
  | none h =>
    cases h' with
    | none _ => rfl
    | @some before after text _ has _ _ => exact absurd (has ▸ hmem before after text) (h text)
  | @some before after text n has hn hlast =>
    cases h' with
    | none h' => exact absurd (has ▸ hmem before after text) (h' text)
    | @some before' after' text' n' has' hn' hlast' =>
      -- The last one is the first one from the other end.
      have hreverse := congrArg List.reverse (has.symm.trans has')
      simp only [List.reverse_append, List.reverse_cons, List.append_assoc, List.singleton_append]
        at hreverse
      have hfirst := eq_of_first (P := fun a => ∃ text, a = depthArgument text) hreverse
        (fun y hy ⟨text, heq⟩ => hlast text (heq ▸ List.mem_reverse.mp hy)) ⟨text, rfl⟩
        (fun y hy ⟨text, heq⟩ => hlast' text (heq ▸ List.mem_reverse.mp hy)) ⟨text', rfl⟩
      rw [← depthArgument_inj hfirst] at hn'
      rw [← depth?_eq_some_iff.mpr hn, ← depth?_eq_some_iff.mpr hn']

theorem LastDepth.append_other (h : LastDepth as limit) (ha : ∀ text, a ≠ depthArgument text) :
    LastDepth (as ++ [a]) limit := by
  have hother (after : List String) (hafter : ∀ text, depthArgument text ∉ after) (text : String) :
      depthArgument text ∉ after ++ [a] := by
    rw [List.mem_append, List.mem_singleton]
    exact fun hmem => hmem.elim (hafter text) fun heq => ha text heq.symm
  cases h with
  | none h => exact .none (hother as h)
  | @some before after text n has hn hlast =>
    have hsplit : as ++ [a] = before ++ depthArgument text :: (after ++ [a]) := by
      rw [has, List.append_assoc, List.cons_append]
    exact .some hsplit hn (hother after hlast)

theorem LastDepth.filter (h : LastDepth as limit) :
    LastDepth (as.filter fun a => !isPath a) limit := by
  cases h with
  | none h => exact .none fun text hmem => h text (List.mem_filter.mp hmem).1
  | @some before after text n has hn hlast =>
    have hsplit : (as.filter fun a => !isPath a) = (before.filter fun a => !isPath a) ++
        depthArgument text :: after.filter fun a => !isPath a := by
      rw [has, List.filter_append, List.filter_cons_of_pos]
      rw [isPath_depthArgument]
      rfl
    exact .some hsplit hn fun text hmem => hlast text (List.mem_filter.mp hmem).1

/-- What a list of arguments can come to. -/
inductive Answers (as : List String) : Except Fault RunOptions → Prop
  | accepted {o : RunOptions} (hnone : ∀ a ∈ as, ¬ IsRefused a) (hlimit : LastDepth as o.limit)
      (htime : o.time = true ↔ "--time" ∈ as) (hpath : o.path = as.find? isPath) :
      Answers as (.ok o)
  | refused {fault : Fault} {before after : List String} {a : String}
      (has : as = before ++ a :: after) (hbefore : ∀ b ∈ before, ¬ IsRefused b)
      (ha : Refused a fault.message) : Answers as (.error fault)

theorem Answers.append {o : RunOptions} (h : Answers as (.ok o)) (a : String) :
    Answers (as ++ [a]) (add o a) := by
  cases h with
  | accepted hnone hlimit htime hpath =>
    have hall (ha : ¬ IsRefused a) : ∀ b ∈ as ++ [a], ¬ IsRefused b := by
      rw [List.forall_mem_append, List.forall_mem_singleton]
      exact ⟨hnone, ha⟩
    have htime' : "--time" ∈ as ++ [a] ↔ o.time = true ∨ "--time" = a := by
      rw [List.mem_append, List.mem_singleton, htime]
    have hadds := adds o a
    generalize add o a = r at hadds
    cases hadds with
    | @depth text n ha hn =>
      subst ha
      refine .accepted (hall (not_isRefused_of_isDepth hn)) (.some rfl hn (by simp)) ?_ ?_
      · rw [htime', or_iff_left (depthArgument_ne_time text).symm]
      · simp [hpath, List.find?_append, isPath_depthArgument]
    | time ha =>
      subst ha
      refine .accepted (hall not_isRefused_time)
        (hlimit.append_other fun text heq => depthArgument_ne_time text heq.symm) ?_ ?_
      · simp
      · simp [hpath, List.find?_append, isPath_time]
    | path ha =>
      have hdepth (text : String) : a ≠ depthArgument text := by
        rintro rfl
        rw [isPath_depthArgument] at ha
        cases ha
      have hflag : ¬ "--time" = a := by
        rintro rfl
        rw [isPath_time] at ha
        cases ha
      refine .accepted (hall (not_isRefused_of_isPath ha)) (hlimit.append_other hdepth) ?_ ?_
      · rw [htime', or_iff_left hflag]
      · simp [hpath, List.find?_append, ha]
    | refused h => exact .refused rfl hnone h

theorem answers (as : List String) : Answers as (ofArguments as) := by
  induction as using List.reverseRecOn with
  | nil =>
    have hpath : default.path = List.find? isPath [] := rfl
    exact .accepted (by simp) (.none (by simp)) (by simp [default]) hpath
  | append_singleton as a ih =>
    have hnext : ofArguments (as ++ [a]) = ofArguments as >>= fun o => add o a := by
      rw [ofArguments, List.foldlM_append]
      simp [ofArguments]
    rw [hnext]
    generalize ofArguments as = r at ih
    cases r with
    | ok o => exact ih.append a
    | error fault =>
      cases ih with
      | @refused _ before after b has hbefore hb =>
        have hsplit : as ++ [a] = before ++ b :: (after ++ [a]) := by
          rw [has, List.append_assoc, List.cons_append]
        exact .refused hsplit hbefore hb

theorem ofArguments_error_iff :
    (∃ fault, ofArguments as = .error fault ∧ fault.message = message) ↔
      ∃ before a after, as = before ++ a :: after ∧ (∀ b ∈ before, ¬ IsRefused b) ∧
        Refused a message := by
  have hanswers := answers as
  constructor
  · rintro ⟨fault, h, rfl⟩
    rw [h] at hanswers
    cases hanswers with
    | refused has hbefore ha => exact ⟨_, _, _, has, hbefore, ha⟩
  · rintro ⟨before, a, after, has, hbefore, ha⟩
    generalize ofArguments as = r at hanswers
    cases hanswers with
    | accepted hnone _ _ _ =>
      exact absurd ⟨message, ha⟩ (hnone a (has ▸ List.mem_append_right _ List.mem_cons_self))
    | @refused fault _ _ a' has' hbefore' ha' =>
      have hfirst : a' = a :=
        eq_of_first (has'.symm.trans has) hbefore' ⟨_, ha'⟩ hbefore ⟨message, ha⟩
      exact ⟨fault, rfl, (hfirst ▸ ha').message_eq ha⟩

theorem ofArguments_fails_iff :
    (∃ fault, ofArguments as = .error fault) ↔ ∃ a ∈ as, IsRefused a := by
  have hanswers := answers as
  generalize ofArguments as = r at hanswers
  cases hanswers with
  | accepted hnone _ _ _ =>
    exact iff_of_false (by simp) fun ⟨a, hmem, ha⟩ => hnone a hmem ha
  | @refused fault before after a has _ ha =>
    have hmem : a ∈ as := has ▸ List.mem_append_right _ List.mem_cons_self
    exact iff_of_true ⟨fault, rfl⟩ ⟨a, hmem, fault.message, ha⟩

theorem ofArguments_ok_iff {o : RunOptions} :
    ofArguments as = .ok o ↔ (∀ a ∈ as, ¬ IsRefused a) ∧ LastDepth as o.limit ∧
      (o.time = true ↔ "--time" ∈ as) ∧ o.path = as.find? isPath := by
  have hanswers := answers as
  constructor
  · intro h
    rw [h] at hanswers
    cases hanswers with
    | accepted hnone hlimit htime hpath => exact ⟨hnone, hlimit, htime, hpath⟩
  · rintro ⟨hnone, hlimit, htime, hpath⟩
    generalize ofArguments as = r at hanswers
    cases hanswers with
    | refused has _ ha =>
      exact absurd ⟨_, ha⟩ (hnone _ (has ▸ List.mem_append_right _ List.mem_cons_self))
    | @accepted o' _ hlimit' htime' hpath' =>
      obtain ⟨limit, time, path⟩ := o
      obtain ⟨limit', time', path'⟩ := o'
      cases hlimit.eq hlimit'
      cases hpath.trans hpath'.symm
      cases Bool.eq_iff_iff.mpr (htime.trans htime'.symm)
      rfl

theorem ofArguments_reorder {o : RunOptions} (hpaths : as'.filter isPath = as.filter isPath)
    (hoptions : (as'.filter fun a => !isPath a) = as.filter fun a => !isPath a)
    (h : ofArguments as = .ok o) : ofArguments as' = .ok o := by
  obtain ⟨hnone, hlimit, htime, hpath⟩ := ofArguments_ok_iff.mp h
  have hmem (a : String) : a ∈ as' ↔ a ∈ as := by
    have hboth (l : List String) :
        a ∈ l ↔ a ∈ l.filter isPath ∨ a ∈ l.filter fun a => !isPath a := by
      cases hcase : isPath a <;> simp [hcase]
    rw [hboth as', hpaths, hoptions, ← hboth as]
  have hnone' : ∀ a ∈ as', ¬ IsRefused a := fun a ha => hnone a ((hmem a).mp ha)
  cases hread : ofArguments as' with
  | error fault =>
    obtain ⟨a, ha, hrefused⟩ := ofArguments_fails_iff.mp ⟨fault, hread⟩
    exact absurd hrefused (hnone' a ha)
  | ok o' =>
    obtain ⟨-, hlimit', htime', hpath'⟩ := ofArguments_ok_iff.mp hread
    have hlast : o'.limit = o.limit := hlimit'.filter.eq (hoptions ▸ hlimit.filter)
    rw [← h, eq_comm, ofArguments_ok_iff]
    refine ⟨hnone, hlast ▸ hlimit, ?_, ?_⟩
    · rw [htime', hmem]
    · rw [hpath', ← List.head?_filter, hpaths, List.head?_filter]

end Lists

/-- What a list of arguments means. It is refused exactly if one of the arguments is, with the
message for the first of these. Otherwise the last depth, the time flag anywhere and the first path
make up the options. Options may be moved among the paths when each of the two keep their order. -/
theorem ofArguments_means (as : List String) :
    ((∃ fault, ofArguments as = .error fault) ↔ ∃ a ∈ as, IsRefused a) ∧
    (∀ message, (∃ fault, ofArguments as = .error fault ∧ fault.message = message) ↔
      ∃ before a after, as = before ++ a :: after ∧ (∀ b ∈ before, ¬ IsRefused b) ∧
        Refused a message) ∧
    (∀ o, ofArguments as = .ok o ↔ (∀ a ∈ as, ¬ IsRefused a) ∧ LastDepth as o.limit ∧
      (o.time = true ↔ "--time" ∈ as) ∧ o.path = as.find? isPath) ∧
    ∀ as' o, as'.filter isPath = as.filter isPath →
      (as'.filter fun a => !isPath a) = as.filter (fun a => !isPath a) →
      ofArguments as = .ok o → ofArguments as' = .ok o :=
  ⟨ofArguments_fails_iff, fun _ => ofArguments_error_iff, fun _ => ofArguments_ok_iff,
    fun _ _ => ofArguments_reorder⟩

/-- Options before, between and after two paths, with a depth that is set twice; and the first of
two arguments that are refused. -/
theorem ofArguments_means_mixed :
    ofArguments ["--max-depth=1", "--time", "--max-depth=+0007", "a.wl", "-"] =
      .ok ⟨some 7, true, some "a.wl"⟩ ∧
    ofArguments ["--max-depth=1", "a.wl", "--time", "-", "--max-depth=+0007"] =
      .ok ⟨some 7, true, some "a.wl"⟩ ∧
    ∃ before a after, ["-", "--max-depth=18446744073709551616", "--fast"] = before ++ a :: after ∧
      (∀ b ∈ before, ¬ IsRefused b) ∧
        Refused a "invalid --max-depth value '18446744073709551616'" := by
  have hread : ofArguments ["--max-depth=1", "--time", "--max-depth=+0007", "a.wl", "-"] =
      .ok ⟨some 7, true, some "a.wl"⟩ := by decide +kernel
  refine ⟨hread, ?_, ?_⟩
  · exact (ofArguments_means _).2.2.2 _ _ (by decide +kernel) (by decide +kernel) hread
  · exact ((ofArguments_means _).2.1 _).mp
      ⟨.invalidDepth "18446744073709551616", by decide +kernel, by decide +kernel⟩

end ExprLang.RunOptions
