import TamperEvident.Bytes

/-! The twisted Edwards curve `-x² + y² = 1 + d x² y²` over the integers modulo
`2 ^ 255 - 19`, in extended coordinates, where one addition law holds for all
points. -/

namespace TamperEvident.Edwards25519

def prime : Nat := 2 ^ 255 - 19

def order : Nat := 2 ^ 252 + 27742317777372353535851937790883648493

def add (a b : Nat) : Nat := (a + b) % prime

def sub (a b : Nat) : Nat := (a + (prime - b % prime)) % prime

def mul (a b : Nat) : Nat := a * b % prime

/-- `base ^ exponent`, with the bits of the exponent counted by `bits`. -/
def power (base : Nat) : (bits : Nat) → (exponent : Nat) → Nat
  | 0, _ => 1
  | bits + 1, exponent =>
    let half := power base bits (exponent / 2)
    let square := mul half half
    if exponent % 2 = 1 then mul square base else square

def inverse (a : Nat) : Nat := power a 255 (prime - 2)

def d : Nat := mul (prime - 121665) (inverse 121666)

def rootOfMinusOne : Nat := power 2 255 ((prime - 1) / 4)

/-- The even root of `u / v`, if it has one. -/
def sqrtRatio (u v : Nat) : Option Nat :=
  let v3 := mul (mul v v) v
  let v7 := mul (mul v3 v3) v
  let r := mul (mul u v3) (power (mul u v7) 255 ((prime - 5) / 8))
  let check := mul v (mul r r)
  let root :=
    if check = u % prime then some r
    else if check = sub 0 u then some (mul r rootOfMinusOne)
    else none
  root.map fun r => if r % 2 = 1 then prime - r else r

structure Point where
  x : Nat
  y : Nat
  z : Nat
  t : Nat

namespace Point

def zero : Point := ⟨0, 1, 1, 0⟩

def ofAffine (x y : Nat) : Point := ⟨x, y, 1, mul x y⟩

def neg (p : Point) : Point := { p with x := sub 0 p.x, t := sub 0 p.t }

def add (p q : Point) : Point :=
  let a := mul (sub p.y p.x) (sub q.y q.x)
  let b := mul (Edwards25519.add p.y p.x) (Edwards25519.add q.y q.x)
  let c := mul (mul p.t (mul 2 d)) q.t
  let e := mul (mul 2 p.z) q.z
  let f := sub e c
  let g := Edwards25519.add e c
  let h := Edwards25519.add b a
  let i := sub b a
  ⟨mul i f, mul g h, mul f g, mul i h⟩

def scale (p : Point) : (bits : Nat) → (scalar : Nat) → Point
  | 0, _ => zero
  | bits + 1, scalar =>
    let half := scale p bits (scalar / 2)
    let double := half.add half
    if scalar % 2 = 1 then double.add p else double

/-- The `y` coordinate, with the low bit of `x` on top. -/
def compress (p : Point) : Bytes :=
  let zi := inverse p.z
  let x := mul p.x zi
  let y := mul p.y zi
  Bytes.littleEndian 32 (y + 2 ^ 255 * (x % 2))

/-- The point with a given compressed form. A `y` at or above the prime counts
modulo it. -/
def decompress (bytes : Bytes) : Option Point := do
  let n := Bytes.ofLittleEndian bytes
  let y := n % 2 ^ 255 % prime
  let yy := mul y y
  let x ← sqrtRatio (sub yy 1) (Edwards25519.add (mul d yy) 1)
  return ofAffine (if n / 2 ^ 255 % 2 = 1 then sub 0 x else x) y

end Point

/-- The point with `y = 4 / 5` and even `x`. -/
def base : Point :=
  (Point.decompress (Bytes.littleEndian 32 (mul 4 (inverse 5)))).getD .zero

end TamperEvident.Edwards25519
