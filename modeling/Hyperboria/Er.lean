/-
`exception/Er.h` and `util/Assert.h`: what a call can come to. The macros of this
tree leave a raise nowhere to go: `Er_raise` prints its message and aborts, `Er`
and `Er_check` are their argument. So a call returns a value or ends the process,
and a raise is not a value a caller can look at.

`spin` is not a thing the program does: a model that is given a number of steps
answers it when they run out. Results that say a call returns, or aborts, exclude it.
-/
import Mathlib

namespace Hyperboria

/-- The end of a call. -/
inductive Er (α : Type) where
  /-- the call returns -/
  | ret (a : α)
  /-- the process ends, with this text on `stderr` (without the file and line `Er__raise` adds) -/
  | abort (message : String)
  /-- the steps given to the model ran out -/
  | spin
deriving DecidableEq, Repr

namespace Er

def bind {α β : Type} (x : Er α) (f : α → Er β) : Er β :=
  match x with
  | .ret a => f a
  | .abort message => .abort message
  | .spin => .spin

instance : Monad Er where
  pure := .ret
  bind := bind

/-- `Er_raise`: no unwinding to a caller. -/
def raise {α : Type} (message : String) : Er α := .abort message

/-- `Er_check(r, e)` is `(e)`: error recovery is no longer available. -/
def check {α : Type} (expr : Er α) : Er α := expr

/-- `Assert_true`. -/
def assertTrue (expr : Bool) (text : String) : Er Unit := if expr then .ret () else .abort text

/-- The call comes back to its caller. -/
def Returns {α : Type} (x : Er α) : Prop := ∃ a, x = .ret a

/-- The call ends the process. -/
def Aborts {α : Type} (x : Er α) : Prop := ∃ message, x = .abort message

/-- The call comes back, or ends the process with a text for which there is such an excuse. -/
def AbortsOnly {α : Type} (x : Er α) (excuse : String → Prop) : Prop :=
  x.Returns ∨ ∃ message, x = .abort message ∧ excuse message

/-- If the call comes back, then with such a value. -/
def Ensures {α : Type} (x : Er α) (post : α → Prop) : Prop := ∀ a, x = .ret a → post a

/-- The call ends the process only with a text for which there is such an excuse, and comes back only
with such a value. -/
def Meets {α : Type} (x : Er α) (excuse : String → Prop) (post : α → Prop) : Prop :=
  (∀ message, x = .abort message → excuse message) ∧ x.Ensures post

variable {α : Type}

@[simp] theorem pure_eq (a : α) : (pure a : Er α) = .ret a := rfl

variable {β : Type}

@[simp] theorem ret_bind (a : α) (f : α → Er β) : (Er.ret a >>= f) = f a := rfl

@[simp] theorem abort_bind (m : String) (f : α → Er β) : (Er.abort m >>= f) = .abort m := rfl

@[simp] theorem spin_bind (f : α → Er β) : (Er.spin >>= f) = .spin := rfl

variable {x : Er α} {f : α → Er β}

theorem bind_eq_ret {b} :
    (x >>= f) = .ret b ↔ ∃ a, x = .ret a ∧ f a = .ret b := by
  cases x with
  | _ => simp

theorem bind_inv {b} (h : (x >>= f) = .ret b) : ∃ a, x = .ret a ∧ f a = .ret b := bind_eq_ret.mp h

/-- What is returned at the end does not depend on the steps before it. -/
theorem eq_of_bind_ret {b c : β} (h : (x >>= fun _ => .ret b) = .ret c) : b = c := by
  obtain ⟨_, _, hb⟩ := bind_inv h
  exact Er.ret.inj hb

theorem bind_inv2 {γ} {y : α → Er β} {g : α → β → Er γ} {c} (h : (x >>= fun a => y a >>= g a) = .ret c) :
    ∃ a, x = .ret a ∧ ∃ b, y a = .ret b ∧ g a b = .ret c := by
  simpa [bind_eq_ret] using h

theorem bind_ne_spin (hx : x ≠ .spin) (hf : ∀ a, x = .ret a → f a ≠ .spin) :
    (x >>= f) ≠ .spin := by
  cases x with
  | ret a => exact hf a rfl
  | abort m => simp
  | spin => exact absurd rfl hx

theorem not_returns_iff (hx : x ≠ .spin) : ¬ x.Returns ↔ x.Aborts := by
  cases x with
  | ret a => simp [Returns, Aborts]
  | abort m => simp [Returns, Aborts]
  | spin => exact absurd rfl hx

variable {b : Bool} {text : String}

@[simp] theorem assertTrue_eq_ret {u} :
    assertTrue b text = .ret u ↔ b = true := by
  cases b with
  | true => simp [assertTrue]
  | false => simp [assertTrue]

theorem assertTrue_bind {f : Unit → Er α} (h : b = true) :
    (assertTrue b text >>= f) = f () := by
  rw [h]
  rfl

theorem assertTrue_ne_spin (b : Bool) (text : String) : assertTrue b text ≠ .spin := by
  cases b with
  | true => simp [assertTrue]
  | false => simp [assertTrue]

@[simp] theorem returns_ret (a : α) : (Er.ret a).Returns := ⟨a, rfl⟩

@[simp] theorem not_returns_abort (m : String) : ¬ (Er.abort m : Er α).Returns := by
  rintro ⟨a, h⟩
  cases h

theorem returns_bind :
    (x >>= f).Returns ↔ ∃ a, x = .ret a ∧ (f a).Returns := by
  unfold Returns
  simp only [bind_eq_ret]
  constructor
  · rintro ⟨b, a, ha, hb⟩
    exact ⟨a, ha, b, hb⟩
  · rintro ⟨a, ha, b, hb⟩
    exact ⟨b, a, ha, hb⟩

@[simp] theorem returns_assertTrue_bind {f : Unit → Er α} :
    (assertTrue b text >>= f).Returns ↔ b = true ∧ (f ()).Returns := by
  cases b with
  | true => simp [assertTrue]
  | false => simp [assertTrue]

variable {excuse : String → Prop}

theorem AbortsOnly.ret (a : α) : (Er.ret a).AbortsOnly excuse := .inl ⟨a, rfl⟩

theorem AbortsOnly.bind (hx : x.AbortsOnly excuse) (hf : ∀ a, x = .ret a → (f a).AbortsOnly excuse) :
    (x >>= f).AbortsOnly excuse := by
  rcases hx with ⟨a, rfl⟩ | ⟨message, rfl, hexcuse⟩
  · exact hf a rfl
  · exact .inr ⟨message, rfl, hexcuse⟩

theorem AbortsOnly.assertTrue (h : b = false → excuse text) :
    (assertTrue b text).AbortsOnly excuse := by
  cases b with
  | true => exact .ret ()
  | false => exact .inr ⟨text, rfl, h rfl⟩

theorem ensures_ret {post} {a : α} (h : post a) : (Er.ret a).Ensures post := by
  intro b hb
  cases hb
  exact h

theorem Ensures.bind {mid} {post} (hx : x.Ensures mid) (hf : ∀ a, mid a → (f a).Ensures post) :
    (x >>= f).Ensures post := by
  intro b hb
  obtain ⟨a, ha, hb⟩ := bind_inv hb
  exact hf a (hx a ha) b hb

/-- Nothing need be known of what comes before. -/
theorem ensures_bind {post} (hf : ∀ a, (f a).Ensures post) :
    (x >>= f).Ensures post := by
  intro b hb
  obtain ⟨a, -, hb⟩ := bind_inv hb
  exact hf a b hb

variable {post : α → Prop}

theorem meets_ret {a} (h : post a) :
    (Er.ret a).Meets excuse post :=
  ⟨fun _ hm => (nomatch hm), ensures_ret h⟩

theorem meets_spin : (Er.spin : Er α).Meets excuse post :=
  ⟨fun _ hm => (nomatch hm), fun _ ha => (nomatch ha)⟩

theorem meets_abort {message} (h : excuse message) :
    (Er.abort message : Er α).Meets excuse post := by
  refine ⟨fun m hm => ?_, fun _ ha => (nomatch ha)⟩
  obtain rfl := Er.abort.inj hm
  exact h

theorem meets_assertTrue (h : b = false → excuse text) :
    (assertTrue b text).Meets excuse fun _ => b = true := by
  cases b with
  | true => exact meets_ret rfl
  | false => exact meets_abort (h rfl)

theorem Meets.bind {mid} {post} (hx : x.Meets excuse mid)
    (hf : ∀ a, mid a → (f a).Meets excuse post) :
    (x >>= f).Meets excuse post := by
  cases x with
  | ret a => exact hf a (hx.2 a rfl)
  | abort m => exact meets_abort (hx.1 m rfl)
  | spin => exact meets_spin

theorem Meets.imp {post'} (hx : x.Meets excuse post) (h : ∀ a, post a → post' a) :
    x.Meets excuse post' :=
  ⟨hx.1, fun a ha => h a (hx.2 a ha)⟩

end Er

end Hyperboria
