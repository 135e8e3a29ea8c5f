import DancingLinks.Fault

/-! # Arithmetic on words

Indices and counters are natural numbers below `2 ^ 64`. An operation whose exact result is not
such a number is a fault, so no result ever wraps around.
-/
namespace DancingLinks.Word

def modulus : Nat := Nat.pow 2 64

def max : Nat := modulus - 1

def check (n : Nat) : Except Fault Nat :=
  if n < modulus then .ok n else .error .overflow

def add (a b : Nat) : Except Fault Nat := check (a + b)

def sub (a b : Nat) : Except Fault Nat :=
  if b ≤ a then .ok (a - b) else .error .overflow

def mul (a b : Nat) : Except Fault Nat := check (a * b)

def div (a b : Nat) : Except Fault Nat :=
  if b = 0 then .error .divisionByZero else .ok (a / b)

def mod (a b : Nat) : Except Fault Nat :=
  if b = 0 then .error .divisionByZero else .ok (a % b)

def distance (a b : Nat) : Nat := (a - b) + (b - a)

theorem modulus_eq : modulus = 18446744073709551616 := rfl

theorem check_of_lt {n : Nat} (h : n < modulus) : check n = .ok n := if_pos h

theorem add_of_lt {a b : Nat} (h : a + b < modulus) : add a b = .ok (a + b) := check_of_lt h

theorem sub_of_le {a b : Nat} (h : b ≤ a) : sub a b = .ok (a - b) := if_pos h

theorem mul_of_lt {a b : Nat} (h : a * b < modulus) : mul a b = .ok (a * b) := check_of_lt h

end DancingLinks.Word
