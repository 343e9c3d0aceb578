import ExprLang.Proofs.Machine.Handover

namespace ExprLang

theorem Value.identity?_of_identical {v w : Value} (h : v.identical w = true) :
    v.identity? = w.identity? := by
  cases v <;> cases w <;> simp_all [identical, identity?]

theorem Store.newGlobal_lt (s : Store) (prelude : Bool) :
    (s.newGlobal prelude).1 < (s.newGlobal prelude).2.frames.size :=
  Nat.lt_of_lt_of_le s.newRoot_lt (Extends.defineAll s.newRoot.2 s.newRoot.1 _).size

namespace Session

/-- A session between two evaluations, or during one. -/
inductive Stage where
  | idle (s : Session)
  | running (s : Session) (m : Machine)

namespace Stage

def store : Stage → Store
  | idle s => s.world.store
  | running _ m => m.world.store

/-- A value in the scopes or in the hands of the machine, not inside of an array. -/
def Has : Stage → Value → Prop
  | idle s => s.world.store.Holds
  | running _ m => m.Has

/-- The global scope is there, and code runs in frames that are there. -/
def Grounded : Stage → Prop
  | idle s => s.root < s.world.store.frames.size
  | running s m => s.root < m.world.store.frames.size ∧ m.Grounded

end Stage

/-- Inside one of the values that have come up, or one of them. -/
def Known (past : Value → Prop) (v : Value) : Prop := ∃ u, past u ∧ v.Part u

/-- A value that can be handed to a session: it has no identity, or it has come up. -/
def Given (past : Value → Prop) (v : Value) : Prop := v.identity? = none ∨ Known past v

/-- What can happen in the life of a session, after certain values have come up, and the array or
function that is made by it. -/
inductive Move (past : Value → Prop) : Stage → Stage → Option Value → Prop
  | evaluate (s : Session) (program : Expr) :
    Move past (.idle s) (.running s (s.evaluate program)) none
  | call (s : Session) {callee : Value} {args : List Value}
      (hgiven : ∀ v ∈ callee :: args, Given past v) :
    Move past (.idle s) (.running s (s.call callee args)) none
  | wait (s : Session) (m : Machine) (ms : Nat) :
    Move past (.running s m) (.running s (m.wait ms)) none
  | step (s : Session) {m m' : Machine} (h : m.step s.config = .next m') :
    Move past (.running s m) (.running s m') (m.made? s.config)
  /-- The evaluation ends, with a value or an error. -/
  | finish (s : Session) {m : Machine} {f : Machine.Finished} (h : m.step s.config = .done f) :
    Move past (.running s m) (.idle (s.resume f)) none
  | define (s : Session) (name : String) {v : Value} (hgiven : Given past v) :
    Move past (.idle s) (.idle (s.define name v)) none
  | set {s s' : Session} {name : String} {v : Value} (hgiven : Given past v)
      (h : s.set name v = .ok s') : Move past (.idle s) (.idle s') none
  | invoke (s : Session) {receiver : Value} (method : String) {args : List Value}
      (hgiven : ∀ v ∈ receiver :: args, Given past v) :
    Move past (.idle s) (.idle (s.invoke receiver method args).2)
      ((s.invoke receiver method args).1.toOption.filter (·.identity?.isSome))
  | register {s s' : Session} {typeName name fromType fromName : String}
      (h : s.alias? typeName name fromType fromName = some s') :
    Move past (.idle s) (.idle s') none
  | takeOutput (s : Session) : Move past (.idle s) (.idle s.takeOutput.2) none
  /-- An array is made outside of the session, to be handed to it. -/
  | array (s : Session) {items : List Value} (hgiven : ∀ v ∈ items, Given past v) :
    Move past (.idle s) (.idle (s.withStore s.world.store.fresh.2))
      (some (.array s.world.store.nextId items))
  /-- So is a function. -/
  | function (s : Session) (fn : Lambda) (frame : FrameId) :
    Move past (.idle s) (.idle (s.withStore s.world.store.fresh.2))
      (some (.closure s.world.store.nextId fn frame))

/-- A stage in the life of a session, and all values that have come up until then. -/
inductive Reached : Stage → (Value → Prop) → Prop
  | new (config : Config) (prelude : Bool) (output : Output) (now : Nat) :
    Reached (.idle (Session.new config prelude ⟨.empty, output, now⟩))
      (Stage.idle (Session.new config prelude ⟨.empty, output, now⟩)).Has
  | move {stage stage' : Stage} {past : Value → Prop} {made : Option Value}
      (h : Reached stage past) (hmove : Move past stage stage' made) :
    Reached stage' fun v => past v ∨ v ∈ made ∨ stage'.Has v

/-- What there is to know about a move: it gives out identities in order, makes an array or a
function out of what has come up, and leads to a stage with nothing else that is new. -/
structure Moved (past : Value → Prop) (stage stage' : Stage) (made : Option Value) : Prop where
  store : stage.store.Extends stage'.store
  fresh : ∀ x ∈ made, x.identity? = some stage.store.nextId ∧
    stage.store.nextId < stage'.store.nextId
  parts : ∀ x ∈ made, ∀ w, w.Part x → w = x ∨ Given past w
  held : ∀ v, stage'.Has v → v ∈ made ∨ Given past v

section Moves

variable {past : Value → Prop} {stage stage' : Stage} {made : Option Value}

theorem given_of_past {v : Value} (h : past v) : Given past v := .inr ⟨v, h, .self⟩

theorem Given.part {v w : Value} (h : Given past v) (hw : w.Part v) : Given past w := by
  rcases h with hv | ⟨u, hu, hvu⟩
  · rw [Value.part_of_identity? hw hv]
    exact .inl hv
  · exact .inr ⟨u, hu, hw.trans hvu⟩

theorem Moved.ofNone (store : stage.store.Extends stage'.store)
    (held : ∀ v, stage'.Has v → Given past v) : Moved past stage stage' none :=
  ⟨store, by rintro x ⟨⟩, by rintro x ⟨⟩, fun v hv => .inr (held v hv)⟩

theorem parts_array {id : Nat} {items : List Value} (h : ∀ v ∈ items, Given past v) {w : Value}
    (hw : w.Part (.array id items)) : w = .array id items ∨ Given past w := by
  rcases Value.part_array hw with rfl | ⟨v, hv, hwv⟩
  · exact .inl rfl
  · exact .inr ((h v hv).part hwv)

theorem moved_step {s : Session} {m m' : Machine} (hheld : ∀ v, m.Has v → past v)
    (h : m.step s.config = .next m') :
    Moved past (.running s m) (.running s m') (m.made? s.config) := by
  refine ⟨Machine.extends_of_next h, ?_, ?_, ?_⟩
  · intro x hx
    obtain ⟨-, hnext⟩ := Machine.value_of_made? h hx
    refine ⟨?_, hnext ▸ Nat.lt_succ_self _⟩
    cases Machine.made_of_made? hx <;> rfl
  · intro x hx w hw
    cases Machine.made_of_made? hx with
    | closure _ => exact .inl (Value.part_closure hw)
    | array hitems =>
      refine parts_array (fun v hv => ?_) hw
      obtain ⟨u, hu, hvu⟩ := hitems v hv
      exact .inr ⟨u, hheld u hu, hvu⟩
  · intro v hv
    rcases Machine.origin_of_next h hv with hv | hv | hv
    · exact .inr (given_of_past (hheld v hv))
    · exact .inr (.inl hv)
    · exact .inl hv

theorem moved_invoke {s : Session} {receiver : Value} (method : String) {args : List Value}
    (hheld : ∀ v, s.world.store.Holds v → past v)
    (hgiven : ∀ v ∈ receiver :: args, Given past v) :
    Moved past (.idle s) (.idle (s.invoke receiver method args).2)
      ((s.invoke receiver method args).1.toOption.filter (·.identity?.isSome)) := by
  obtain ⟨hreceiver, hargs⟩ := List.forall_mem_cons.mp hgiven
  have hmade (x : Value)
      (hx : x ∈ (s.invoke receiver method args).1.toOption.filter (·.identity?.isSome)) :
      ∃ items, x = .array s.world.store.nextId items ∧ ∀ v ∈ items, Given past v := by
    obtain ⟨hx, hidentity⟩ := Option.filter_eq_some_iff.mp hx
    have hinvoked := s.config.methods.invoke_invoked s.world.store.nextId receiver method args
    change (s.config.methods.invoke s.world.store.nextId receiver method args).toOption = _ at hx
    cases hinvoke : s.config.methods.invoke s.world.store.nextId receiver method args with
    | error fault =>
      rw [hinvoke] at hx
      cases hx
    | ok v =>
      rw [hinvoke] at hx hinvoked
      cases hx
      cases hinvoked with
      | string text => cases hidentity
      | array id items hitems =>
        cases MethodTable.identity_of_invoke hinvoke
        refine ⟨items, rfl, fun v hv => ?_⟩
        rcases hitems v hv with hv | ⟨i, before, rfl, hv⟩
        · exact hargs v hv
        · exact hreceiver.part (.item hv .self)
  refine ⟨.fresh _, ?_, ?_, fun v hv => .inr (given_of_past (hheld v hv))⟩
  · intro x hx
    obtain ⟨items, rfl, -⟩ := hmade x hx
    exact ⟨rfl, Nat.lt_succ_self _⟩
  · intro x hx w hw
    obtain ⟨items, rfl, hitems⟩ := hmade x hx
    exact parts_array hitems hw

theorem Move.moved (hheld : ∀ v, stage.Has v → past v) (h : Move past stage stage' made) :
    Moved past stage stage' made := by
  cases h with
  | evaluate s program =>
    refine .ofNone (.refl _) fun v hv => ?_
    rcases hv with hv | ⟨p, hp, -⟩ | hv
    · cases hv
    · cases hp
    · exact given_of_past (hheld v hv)
  | call s hgiven =>
    refine .ofNone (.refl _) fun v hv => ?_
    rcases hv with hv | ⟨p, hp, -⟩ | hv
    · exact hgiven v hv
    · cases hp
    · exact given_of_past (hheld v hv)
  | wait s m ms => exact .ofNone (.refl _) fun v hv => given_of_past (hheld v hv)
  | step s hstep => exact moved_step hheld hstep
  | @finish s m f hstep =>
    have hworld : f.world = m.world := (Machine.world_of_done hstep).1
    refine .ofNone ?_ fun v hv => given_of_past (hheld v (.inr (.inr ?_)))
    · change m.world.store.Extends f.world.store
      rw [hworld]
      exact .refl _
    · rw [← hworld]
      exact hv
  | define s name hgiven =>
    refine .ofNone (.define ..) fun v hv => ?_
    rcases Store.holds_of_define hv with rfl | hv
    · exact hgiven
    · exact given_of_past (hheld v hv)
  | @set s s' name v hgiven hset =>
    unfold Session.set at hset
    split at hset
    · next store hstore =>
      cases hset
      refine .ofNone (.set? hstore) fun w hw => ?_
      rcases Store.holds_of_set? hstore hw with rfl | hw
      · exact hgiven
      · exact given_of_past (hheld w hw)
    · cases hset
  | invoke s method hgiven => exact moved_invoke method hheld hgiven
  | @register s s' typeName name fromType fromName halias =>
    unfold Session.alias? at halias
    split at halias
    · cases halias
      exact .ofNone (.refl _) fun v hv => given_of_past (hheld v hv)
    · cases halias
  | takeOutput s => exact .ofNone (.refl _) fun v hv => given_of_past (hheld v hv)
  | array s hgiven =>
    refine ⟨.fresh _, ?_, ?_, fun v hv => .inr (given_of_past (hheld v hv))⟩
    · rintro x ⟨⟩
      exact ⟨rfl, Nat.lt_succ_self _⟩
    · rintro x ⟨⟩ w hw
      exact parts_array hgiven hw
  | function s fn frame =>
    refine ⟨.fresh _, ?_, ?_, fun v hv => .inr (given_of_past (hheld v hv))⟩
    · rintro x ⟨⟩
      exact ⟨rfl, Nat.lt_succ_self _⟩
    · rintro x ⟨⟩ w hw
      exact .inl (Value.part_closure hw)

theorem Move.grounded (hstage : stage.Grounded) (h : Move past stage stage' made) :
    stage'.Grounded := by
  cases h with
  | evaluate s program =>
    refine ⟨hstage, ?_, List.forall_mem_nil _⟩
    rintro g ⟨⟩
    exact hstage
  | call s hgiven => exact ⟨hstage, by rintro g ⟨⟩, List.forall_mem_nil _⟩
  | wait s m ms => exact ⟨hstage.1, hstage.2.control, hstage.2.pending⟩
  | step s hstep =>
    obtain ⟨hroot, hm⟩ := hstage
    exact ⟨Nat.lt_of_lt_of_le hroot (Machine.extends_of_next hstep).size, hm.next hstep⟩
  | @finish s m f hstep =>
    change s.root < f.world.store.frames.size
    rw [(Machine.world_of_done hstep).1]
    exact hstage.1
  | define s name hgiven => exact Nat.lt_of_lt_of_le hstage (Store.Extends.define ..).size
  | @set s s' name v hgiven hset =>
    unfold Session.set at hset
    split at hset
    · next store hstore =>
      cases hset
      exact Nat.lt_of_lt_of_le hstage (Store.Extends.set? hstore).size
    · cases hset
  | @register s s' typeName name fromType fromName halias =>
    unfold Session.alias? at halias
    split at halias
    · cases halias
      exact hstage
    · cases halias
  | invoke | takeOutput | array | function => exact hstage

/-- Each identity in a value has been given out, and stands for one content. -/
def Registers (contents : Nat → Value) (nextId : Nat) (v : Value) : Prop :=
  ∀ w, w.Part v → ∀ id ∈ w.identity?, id < nextId ∧ contents id = w

def recorded (contents : Nat → Value) (nextId : Nat) (x : Value) (id : Nat) : Value :=
  if id = nextId then x else contents id

namespace Registers

variable {contents : Nat → Value} {n : Nat} {v : Value}

theorem plain (h : v.identity? = none) : Registers contents n v := by
  intro w hw id hid
  rw [Value.part_of_identity? hw h, h] at hid
  cases hid

theorem part {w : Value} (h : Registers contents n v) (hw : w.Part v) : Registers contents n w :=
  fun u hu => h u (hu.trans hw)

theorem mono {n' : Nat} (h : Registers contents n v) (hn : n ≤ n') : Registers contents n' v :=
  fun w hw id hid => ⟨Nat.lt_of_lt_of_le (h w hw id hid).1 hn, (h w hw id hid).2⟩

theorem recorded (h : Registers contents n v) (x : Value) :
    Registers (Session.recorded contents n x) (n + 1) v := by
  intro w hw id hid
  obtain ⟨hlt, hcontent⟩ := h w hw id hid
  refine ⟨Nat.lt_succ_of_lt hlt, ?_⟩
  rw [Session.recorded, if_neg (Nat.ne_of_lt hlt), hcontent]

theorem ofMade {x : Value} (hx : x.identity? = some n)
    (hparts : ∀ w, w.Part x → w = x ∨ Registers contents n w) :
    Registers (Session.recorded contents n x) (n + 1) x := by
  intro w hw id hid
  rcases hparts w hw with rfl | hregisters
  · cases hx.symm.trans hid
    exact ⟨Nat.lt_succ_self n, if_pos rfl⟩
  · exact hregisters.recorded x w .self id hid

end Registers

/-- All that is held has come up, and all that has come up is accounted for. -/
structure Sound (stage : Stage) (past : Value → Prop) : Prop where
  held : ∀ v, stage.Has v → past v
  registry : ∃ contents, ∀ v, past v → Registers contents stage.store.nextId v
  grounded : stage.Grounded

theorem Sound.move (h : Sound stage past) (hmove : Move past stage stage' made) :
    Sound stage' fun v => past v ∨ v ∈ made ∨ stage'.Has v := by
  refine ⟨fun v hv => .inr (.inr hv), ?_, hmove.grounded h.grounded⟩
  obtain ⟨hstore, hfresh, hparts, hheld⟩ := hmove.moved h.held
  obtain ⟨contents, hcontents⟩ := h.registry
  have hgiven (v : Value) (hv : Given past v) : Registers contents stage.store.nextId v := by
    rcases hv with hv | ⟨u, hu, hvu⟩
    · exact .plain hv
    · exact (hcontents u hu).part hvu
  cases made with
  | none =>
    refine ⟨contents, fun v hv => ?_⟩
    refine Registers.mono ?_ hstore.nextId
    rcases hv with hv | hv | hv
    · exact hcontents v hv
    · cases hv
    · exact hgiven v ((hheld v hv).resolve_left (by rintro ⟨⟩))
  | some x =>
    obtain ⟨hidentity, hlt⟩ := hfresh x rfl
    -- Nothing that has come up has this identity yet, so its content can still be chosen.
    have hx : Registers (recorded contents stage.store.nextId x) (stage.store.nextId + 1) x :=
      .ofMade hidentity fun w hw => (hparts x rfl w hw).imp_right (hgiven w)
    refine ⟨recorded contents stage.store.nextId x, fun v hv => ?_⟩
    refine Registers.mono ?_ hlt
    rcases hv with hv | ⟨⟨⟩⟩ | hv
    · exact (hcontents v hv).recorded x
    · exact hx
    · rcases hheld v hv with ⟨⟨⟩⟩ | hv
      · exact hx
      · exact (hgiven v hv).recorded x

theorem Reached.sound (h : Reached stage past) : Sound stage past := by
  induction h with
  | new config prelude output now =>
    refine ⟨fun v hv => hv, ⟨fun _ => .absent, fun v hv => .plain ?_⟩, ?_⟩
    · rcases Store.holds_of_newGlobal hv with ⟨g, b, hb, -⟩ | hv
      · cases hb
      · exact hv
    · exact Store.newGlobal_lt .empty prelude
  | move _ hmove ih => exact ih.move hmove

theorem Sound.registers_of_known (h : Sound stage past) :
    ∃ contents, ∀ v, Known past v → Registers contents stage.store.nextId v := by
  obtain ⟨contents, hcontents⟩ := h.registry
  refine ⟨contents, ?_⟩
  rintro v ⟨u, hu, hvu⟩
  exact (hcontents u hu).part hvu

/-- Values with an identity that are identical are equal. -/
theorem Sound.eq_of_identical (h : Sound stage past) {v w : Value} (hv : Known past v)
    (hw : Known past w) {id : Nat} (hid : v.identity? = some id) (heq : v.identical w = true) :
    v = w := by
  obtain ⟨contents, hcontents⟩ := h.registers_of_known
  have hidw : w.identity? = some id := (Value.identity?_of_identical heq).symm.trans hid
  rw [← (hcontents v hv v .self id hid).2, (hcontents w hw w .self id hidw).2]

/-- What is made is identical to nothing that has come up. -/
theorem Sound.not_identical (h : Sound stage past) (hmove : Move past stage stage' made)
    {v w : Value} (hv : v ∈ made) (hw : Known past w) : v.identity? ≠ w.identity? := by
  obtain ⟨contents, hcontents⟩ := h.registers_of_known
  obtain ⟨hid, -⟩ := (hmove.moved h.held).fresh v hv
  intro heq
  have hlt := (hcontents w hw w .self _ (heq.symm.trans hid)).1
  exact Nat.lt_irrefl _ hlt

end Moves

/-- Identity is sound over the whole life of a session, whatever programs, calls, definitions and
method invocations it consists of and however they end. Of all values that have come up, also those
inside of arrays, identical arrays have the same items, and identical functions are one function
made in one frame. What an array literal, a function expression or a method of arrays makes is
identical to nothing that has come up. A step has nothing with an identity that was not there and
that it did not make, and what it hands on it leaves as it is. -/
theorem identity_sound {stage : Stage} {past : Value → Prop} (h : Reached stage past) :
    (∀ v, stage.Has v → past v) ∧
    (∀ i as j bs, Known past (.array i as) → Known past (.array j bs) →
      (Value.array i as).identical (.array j bs) = true → as = bs) ∧
    (∀ i fn g j fn' g', Known past (.closure i fn g) → Known past (.closure j fn' g') →
      (Value.closure i fn g).identical (.closure j fn' g') = true → fn = fn' ∧ g = g') ∧
    (∀ stage' made, Move past stage stage' made → ∀ v ∈ made, ∀ w, Known past w →
      v.identical w = false ∧ w.identical v = false) ∧
    ∀ s m, stage = .running s m →
      (∀ f v, m.step s.config = .done f → f.result = .ok v → past v) ∧
      ∀ m', m.step s.config = .next m' →
        (∀ v ∈ m.made? s.config, m'.control = .value v) ∧
        (∀ v, m'.Has v → m.Has v ∨ v.identity? = none ∨ v ∈ m.made? s.config) ∧
        Machine.HandsOver s.config m m' := by
  have hsound := h.sound
  refine ⟨hsound.held, ?_, ?_, ?_, ?_⟩
  · intro i as j bs hleft hright heq
    cases hsound.eq_of_identical hleft hright rfl heq
    rfl
  · intro i fn g j fn' g' hleft hright heq
    cases hsound.eq_of_identical hleft hright rfl heq
    exact ⟨rfl, rfl⟩
  · intro stage' made hmove v hv w hw
    have hne := hsound.not_identical hmove hv hw
    exact ⟨Bool.eq_false_iff.mpr (mt Value.identity?_of_identical hne),
      Bool.eq_false_iff.mpr (mt Value.identity?_of_identical hne.symm)⟩
  · rintro s m rfl
    refine ⟨fun f v hdone hv => ?_, fun m' hstep => ⟨?_, ?_, ?_⟩⟩
    · have hcontrol := (Machine.world_of_done hdone).2 v hv
      exact hsound.held v (.inl (hcontrol ▸ List.mem_cons_self))
    · exact fun v hv => (Machine.value_of_made? hstep hv).1
    · exact fun v hv => Machine.origin_of_next hstep hv
    · exact hsound.grounded.2.handsOver hstep

/-- A new session after an empty array has been made for it, which has the first identity. -/
def handed : Session :=
  let s := Session.new .standard false ⟨.empty, .silent, 0⟩
  s.withStore s.world.store.fresh.2

theorem reached_handed (program : Expr) :
    ∃ past, Reached (.running handed (handed.evaluate program)) past ∧
      Known past (.array 0 []) := by
  have hnew := Reached.new .standard false .silent 0
  have hhanded := hnew.move (.array _ (List.forall_mem_nil _))
  have hrunning := hhanded.move (.evaluate handed program)
  exact ⟨_, hrunning, .array 0 [], .inl (.inr (.inl rfl)), .self⟩

/-- In this session `[]` makes an array with the second identity, which is another one. -/
theorem identity_sound_handed : ∃ past stage,
    Known past (.array 0 []) ∧
    Move past (.running handed (handed.evaluate (.array .start []))) stage (some (.array 1 [])) ∧
    (Value.array 1 []).identical (.array 0 []) = false := by
  obtain ⟨past, hreached, hknown⟩ := reached_handed (.array .start [])
  have hmove : Move past _ _ (some (.array 1 [])) :=
    .step handed (m := handed.evaluate (.array .start [])) rfl
  exact ⟨past, _, hknown, hmove,
    ((identity_sound hreached).2.2.2.1 _ _ hmove _ rfl _ hknown).1⟩

end Session

end ExprLang
