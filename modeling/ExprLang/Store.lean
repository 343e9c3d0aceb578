import ExprLang.Value.Fault
import ExprLang.Text.Quoted

namespace ExprLang

structure Frame where
  /-- The frames around this one, the nearest first. -/
  outer : List FrameId
  bindings : List (String × Value)

namespace Frame

def find? (f : Frame) (name : String) : Option Value := f.bindings.lookup name

def binds (f : Frame) (name : String) : Bool := (f.find? name).isSome

def replace (name : String) (v : Value) : List (String × Value) → List (String × Value)
  | [] => []
  | (n, w) :: more => if n = name then (n, v) :: more else (n, w) :: replace name v more

def insert (f : Frame) (name : String) (v : Value) : Frame :=
  if f.binds name then ⟨f.outer, replace name v f.bindings⟩
  else ⟨f.outer, (name, v) :: f.bindings⟩

theorem lookup_replace_self {name : String} (v : Value) {bs : List (String × Value)}
    (h : (bs.lookup name).isSome) : (replace name v bs).lookup name = some v := by
  induction bs with
  | nil => simp at h
  | cons b bs ih =>
    obtain ⟨n, w⟩ := b
    by_cases hn : n = name
    · simp [replace, hn]
    · have hb : (name == n) = false := by simpa using Ne.symm hn
      simp only [List.lookup_cons, hb] at h
      simpa [replace, hn, List.lookup_cons, hb] using ih h

theorem lookup_replace_of_ne {name other : String} (v : Value) (bs : List (String × Value))
    (h : other ≠ name) : (replace name v bs).lookup other = bs.lookup other := by
  induction bs with
  | nil => rfl
  | cons b bs ih =>
    obtain ⟨n, w⟩ := b
    by_cases hn : n = name
    · have hb : (other == n) = false := by simpa [hn] using h
      simp [replace, hn, List.lookup_cons, hn ▸ hb]
    · by_cases ho : other = n
      · simp [replace, hn, ho]
      · have hb : (other == n) = false := by simpa using ho
        simp [replace, hn, List.lookup_cons, hb, ih]

theorem find?_insert_self (f : Frame) (name : String) (v : Value) :
    (f.insert name v).find? name = some v := by
  by_cases h : f.binds name = true
  · simpa [insert, h, find?] using lookup_replace_self v h
  · simp [insert, h, find?]

theorem find?_insert_of_ne (f : Frame) {name other : String} (v : Value) (h : other ≠ name) :
    (f.insert name v).find? other = f.find? other := by
  by_cases hb : f.binds name = true
  · simpa [insert, hb, find?] using lookup_replace_of_ne v f.bindings h
  · have ho : (other == name) = false := by simpa using h
    simp [insert, hb, find?, List.lookup_cons, ho]

@[simp] theorem outer_insert (f : Frame) (name : String) (v : Value) :
    (f.insert name v).outer = f.outer := by
  unfold insert
  split <;> rfl

end Frame

/-- All frames, and the next identity to give out. -/
structure Store where
  frames : Array Frame
  nextId : Nat

namespace Store

def empty : Store := ⟨#[], 0⟩

def fresh (s : Store) : Nat × Store := (s.nextId, ⟨s.frames, s.nextId + 1⟩)

def frame (s : Store) (id : FrameId) : Frame := s.frames[id]?.getD ⟨[], []⟩

/-- The frames that a name is looked for in, the nearest first. -/
def chain (s : Store) (id : FrameId) : List FrameId := id :: (s.frame id).outer

def newRoot (s : Store) : FrameId × Store := (s.frames.size, ⟨s.frames.push ⟨[], []⟩, s.nextId⟩)

def extend (s : Store) (id : FrameId) : FrameId × Store :=
  (s.frames.size, ⟨s.frames.push ⟨s.chain id, []⟩, s.nextId⟩)

def parent? (s : Store) (id : FrameId) : Option FrameId := (s.frame id).outer.head?

def depth (s : Store) (id : FrameId) : Nat := (s.chain id).length

def binds (s : Store) (name : String) (id : FrameId) : Bool := (s.frame id).binds name

def resolve? (s : Store) (id : FrameId) (name : String) : Option FrameId :=
  (s.chain id).find? (s.binds name)

def lookup (s : Store) (id : FrameId) (name : String) : Option Value :=
  (s.resolve? id name).bind fun owner => (s.frame owner).find? name

def get (s : Store) (id : FrameId) (name : String) : Except EvalFault Value :=
  match s.lookup id name with
  | some v => .ok v
  | none => .error (.undefinedVariable name)

def define (s : Store) (id : FrameId) (name : String) (v : Value) : Store :=
  ⟨s.frames.modify id (·.insert name v), s.nextId⟩

/-- Gives the nearest binding of a name a new value, if there is one. -/
def set? (s : Store) (id : FrameId) (name : String) (v : Value) : Option Store :=
  match s.resolve? id name with
  | some owner => some (s.define owner name v)
  | none => none

/-- Sets a name, which has to be bound, and gives the value back. -/
def set (s : Store) (id : FrameId) (name : String) (v : Value) : Except EvalFault Value × Store :=
  match s.set? id name v with
  | some s' => (.ok v, s')
  | none => (.error (.undefinedVariable name), s)

def defineAll (s : Store) (id : FrameId) : List (String × Value) → Store
  | [] => s
  | (name, v) :: more => (s.define id name v).defineAll id more

def names (s : Store) (id : FrameId) : List String :=
  ((s.frame id).bindings.map (·.1)).mergeSort fun a b => decide (a ≤ b)

def describe (s : Store) (id : FrameId) : String :=
  "Environment \x7b bindings: [" ++ ", ".intercalate ((s.names id).map Text.quoted) ++
    "], depth: " ++ toString (s.depth id) ++ " \x7d"

end Store

end ExprLang
