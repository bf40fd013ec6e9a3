import Kovanica.Lib.Word

/-!
# What the crates take from outside

The two cryptographic packages, `blake3` and `ed25519_dalek`, are parameters:
the ledger only relies on what a theorem asks of the fields of `Crypto`.
A call that does not return a value ends in a `Fault`: an error the caller sees,
or a panic, which ends the run.

`Ends` says of what kind the value, the error or the panic is that a call ends in, and its rule
`bind` follows the sequence of the calls.  That something never panics is said in this form.
-/

namespace Kovanica

open Lib

/-- The external packages: BLAKE3 hashing and strict ed25519.  No law is asked of them here;
where one is needed, such as the absence of a collision, it is named as a hypothesis. -/
class Crypto where
  /-- `blake3::hash`, and a `blake3::Hasher` fed the same bytes in pieces. -/
  blake3 : List U8 → Bytes 32
  /-- `VerifyingKey::from_bytes(key).is_ok()`. -/
  validKey : Bytes 32 → Bool
  /-- `VerifyingKey::verify_strict(message, signature).is_ok()`. -/
  verifyStrict : Bytes 32 → List U8 → Bytes 64 → Bool
  /-- `SigningKey::from_bytes(seed).verifying_key().to_bytes()`. -/
  publicKey : Bytes 32 → Bytes 32
  /-- `SigningKey::from_bytes(seed).sign(message).to_bytes()`. -/
  sign : Bytes 32 → List U8 → Bytes 64

/-- How a call ends that returns no value: with an error that its caller sees and handles, or
with a panic, which ends the run. -/
inductive Fault (ε : Type) where
  | error (e : ε)
  | panic (site : String)
deriving DecidableEq

/-- The result of a call that can fail with `ε` or panic. -/
abbrev Outcome (ε α : Type) : Type := Except (Fault ε) α

/-- A sequence returns what its second part does on what the first returned. -/
theorem Outcome.bind_eq_ok {ε α β : Type} {x : Outcome ε α} {f : α → Outcome ε β} {b : β} :
    (x >>= f) = .ok b ↔ ∃ a, x = .ok a ∧ f a = .ok b := by
  cases x with
  | error e => simp [bind, Except.bind]
  | ok a => simp [bind, Except.bind]

theorem Outcome.ok_bind {ε α β : Type} (a : α) (f : α → Outcome ε β) :
    ((Except.ok a : Outcome ε α) >>= f) = f a := rfl

theorem Outcome.error_bind {ε α β : Type} (e : Fault ε) (f : α → Outcome ε β) :
    ((Except.error e : Outcome ε α) >>= f) = .error e := rfl

/-- The call ends in a value, an error or a panic of which this holds.  Such facts compose along
a sequence of calls, so that the ends of a long one follow from those of its steps. -/
def Outcome.Ends {ε α : Type} (value : α → Prop) (error : ε → Prop) (panic : String → Prop) :
    Outcome ε α → Prop
  | .ok a => value a
  | .error (.error e) => error e
  | .error (.panic site) => panic site

namespace Outcome.Ends

variable {ε α β : Type} {value : α → Prop} {value' : β → Prop} {error : ε → Prop}
  {panic : String → Prop} {x : Outcome ε α} {f : α → Outcome ε β}

theorem intro (hvalue : ∀ a, x = .ok a → value a) (herror : ∀ e, x = .error (.error e) → error e)
    (hpanic : ∀ site, x = .error (.panic site) → panic site) : Ends value error panic x := by
  cases x with
  | ok a => exact hvalue a rfl
  | error e =>
      cases e with
      | error e => exact herror e rfl
      | panic site => exact hpanic site rfl

/-- What is known of the value can be replaced by what follows from the call. -/
theorem value_of (h : Ends value error panic x) {after : α → Prop}
    (hafter : ∀ a, x = .ok a → value a → after a) : Ends after error panic x := by
  cases x with
  | ok a => exact hafter a rfl h
  | error e => cases e <;> exact h

theorem imp (h : Ends value error panic x) {error' : ε → Prop} {panic' : String → Prop}
    (herror : ∀ e, error e → error' e) (hpanic : ∀ site, panic site → panic' site) :
    Ends value error' panic' x := by
  cases x with
  | ok a => exact h
  | error e =>
      cases e with
      | error e => exact herror e h
      | panic site => exact hpanic site h

/-- A sequence ends as its parts do. -/
theorem bind (hx : Ends value error panic x)
    (hf : ∀ a, value a → Ends value' error panic (f a)) : Ends value' error panic (x >>= f) := by
  cases x with
  | ok a => exact hf a hx
  | error e => cases e <;> exact hx

end Outcome.Ends

/-- Two calls end alike: in values that are related, or in the same fault.  This is what it
means that a caller cannot tell them apart. -/
def Outcome.Agree {ε α β : Type} (R : α → β → Prop) : Outcome ε α → Outcome ε β → Prop
  | .ok a, .ok b => R a b
  | .error e, .error e' => e = e'
  | .ok _, .error _ => False
  | .error _, .ok _ => False

namespace Outcome.Agree

variable {ε α α' β β' : Type} {R : α → β → Prop} {S : α' → β' → Prop} {x : Outcome ε α}
  {y : Outcome ε β}

/-- Sequences of calls that end alike end alike. -/
theorem bind {f : α → Outcome ε α'} {g : β → Outcome ε β'} (h : Agree R x y)
    (hf : ∀ a b, R a b → Agree S (f a) (g b)) : Agree S (x >>= f) (y >>= g) := by
  cases x with
  | error e =>
      cases y with
      | error e' => exact h
      | ok b => exact absurd h id
  | ok a =>
      cases y with
      | error e' => exact absurd h id
      | ok b => exact hf a b h

/-- What else holds of two values that are returned may be added. -/
theorem imp {S : α → β → Prop} (h : Agree R x y)
    (hS : ∀ a b, x = .ok a → y = .ok b → R a b → S a b) : Agree S x y := by
  cases x with
  | error e =>
      cases y with
      | error e' => exact h
      | ok b => exact absurd h id
  | ok a =>
      cases y with
      | error e' => exact absurd h id
      | ok b => exact hS a b rfl rfl h

theorem of_eq {x y : Outcome ε α} (h : x = y) : Agree (· = ·) x y := by
  subst h
  cases x with
  | error e => exact rfl
  | ok a => exact rfl

theorem eq {x y : Outcome ε α} (h : Agree (· = ·) x y) : x = y := by
  cases x with
  | error e =>
      cases y with
      | error e' => exact congrArg Except.error h
      | ok b => exact absurd h id
  | ok a =>
      cases y with
      | error e' => exact absurd h id
      | ok b => exact congrArg Except.ok h

end Outcome.Agree

/-- Whether a call ends in an error of its own. -/
instance Outcome.decidableError {ε α : Type} (x : Outcome ε α) :
    Decidable (∃ e, x = .error (.error e)) :=
  match x with
  | .error (.error e) => isTrue ⟨e, rfl⟩
  | .error (.panic _) => isFalse fun ⟨_, h⟩ => by cases h
  | .ok _ => isFalse fun ⟨_, h⟩ => by cases h

/-- A value taken from a call is what the call returned. -/
theorem ok_of_toOption {ε α : Type} {x : Except ε α} {a : α} (h : x.toOption = some a) :
    x = .ok a := by
  cases x with
  | error e => cases h
  | ok b => exact congrArg Except.ok (Option.some.inj h)

/-- A renamed error is no value. -/
theorem ok_of_mapError {ε ε' α : Type} {x : Except ε α} {f : ε → ε'} {a : α}
    (h : x.mapError f = .ok a) : x = .ok a := by
  cases x with
  | error e => cases h
  | ok b => exact congrArg Except.ok (Except.ok.inj h)

/-- The number of entries at which a hash map can no longer grow: its table
would exceed `isize::MAX` bytes, and the allocation panics. -/
def mapCapacity : Nat := 2 ^ 63 - 1

/-! ## Rendering -/

/-- One lowercase hexadecimal digit. -/
def hexDigit (n : Nat) : Char := if n < 10 then Char.ofNat (48 + n) else Char.ofNat (87 + n)

/-- `hex::encode`. -/
def hexEncode (bytes : List U8) : String :=
  String.ofList (bytes.flatMap fun b => [hexDigit (b.val / 16), hexDigit (b.val % 16)])

/-- The first eight digits and an ellipsis, as the `Debug` rendering of ids. -/
def hexPrefix (bytes : List U8) : String :=
  String.ofList ((bytes.take 4).flatMap fun b =>
    [hexDigit (b.val / 16), hexDigit (b.val % 16)]) ++ "…"

end Kovanica
