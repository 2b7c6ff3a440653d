import ObjcLowering.Proofs.Target.Paths

/-! Lifetimes of variables that own a reference. -/

namespace ObjcLowering

/-- How things stand with a variable that owns a reference while it is in scope. -/
inductive Standing
  | absent
  | held (retained : Bool)
  | released
  | lost
  deriving DecidableEq, Repr

namespace Standing

variable {names : List String}

def step : Standing → Event → Option Standing
  | absent, .declare _ => some (held false)
  | held false, .retain _ => some (held true)
  | held _, .release _ => some released
  | held _, .leave _ => some lost
  | released, .leave _ => some absent
  | _, _ => none

/-- How things stand with the variable `v` at the end of a path. -/
def after (v : String) : Standing → List Event → Option Standing
  | st, [] => some st
  | st, e :: t => if e.subject = v then (st.step e).bind (after v · t) else after v st t

@[simp] theorem after_nil : after v st [] = some st := rfl

theorem after_append : after v st (t ++ t') = (after v st t).bind (after v · t') := by
  induction t generalizing st with
  | nil => rfl
  | cons e t ih =>
    simp only [List.cons_append, after]
    split
    · cases st.step e with
      | none => rfl
      | some st => exact ih
    · exact ih

theorem after_of_unmentioned (h : ∀ e ∈ t, e.subject ≠ v) : after v st t = some st := by
  induction t with
  | nil => rfl
  | cons e t ih =>
    rw [after, if_neg (h e (by simp))]
    exact ih fun e he => h e (by simp [he])

theorem after_map_of_count_zero (hf : ∀ u, (f u).subject = u)
    (h : names.count v = 0) : after v st (names.map f) = some st := by
  apply after_of_unmentioned
  intro e he
  obtain ⟨u, hu, rfl⟩ := List.mem_map.mp he
  rw [hf]
  rintro rfl
  exact List.count_eq_zero.mp h hu

theorem after_map_of_count_one (hf : ∀ u, (f u).subject = u)
    (h : names.count v = 1) : after v st (names.map f) = st.step (f v) := by
  induction names with
  | nil => cases h
  | cons u us ih =>
    rw [List.map_cons, after, hf]
    by_cases huv : u = v
    · subst huv
      have hrest : ∀ st : Standing, after u st (us.map f) = some st :=
        fun st => after_map_of_count_zero hf (by simpa using h)
      simp [hrest]
    · rw [if_neg huv]
      exact ih (by simpa [List.count_cons, huv] using h)

theorem after_append_leave (h : names.count v = 0) :
    after v st (t ++ names.map .leave) = after v st t := by
  rw [after_append]
  cases after v st t with
  | none => rfl
  | some st => exact after_map_of_count_zero (fun _ => rfl) h

end Standing

/-- How a variable that was held at the start of a path stands at its end. A jump settles what is
inside the loop, and a return settles all but the variable that it hands out. -/
def Exit.settle (out : Option String) (inLoop : Bool) (v : String) (retained : Bool) :
    Exit → Standing
  | next => .held retained
  | breaks | continues => if inLoop then .released else .held retained
  | returns _ => if out = some v then .held retained else .released

def Standing.atEnd (out : Option String) (v : String) (retained : Bool) : Standing :=
  if out = some v then .held retained else .released

/-- The lifetimes of `v` are over: every one ended after a release, but for the variable that is
handed out. -/
def Finished (out : Option String) (v : String) (st : Option Standing) : Prop :=
  st = some .absent ∨ st = some .lost ∧ out = some v

end ObjcLowering
