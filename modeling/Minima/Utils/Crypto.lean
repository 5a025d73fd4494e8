import Minima.Base.MiniNumber

/-! # `Crypto`: hashing of encodings

The node hashes with SHA3-256 of a crypto library outside the repository. Here it is a parameter, a
function on byte strings; what a result needs of it (that it does not collide on certain
encodings) is a hypothesis of that result. What the repository adds is which bytes are hashed: the
concatenated encodings of the objects, and the empty `MiniData` when an encoder throws. -/

namespace Minima

/-- The hash library of the node. -/
structure Crypto where
  /-- `hashData`, SHA3-256 in the node. -/
  hashData : List Byte → List Byte

namespace Crypto

/-- A hash without collisions, to run the model with: the bytes themselves. -/
def plain : Crypto := ⟨fun bs => bs⟩

/-- The encodings of several objects one after the other; the first that throws decides. -/
def concatAll : List (Result (List Byte)) → Result (List Byte)
  | [] => .ok []
  | e :: es => do
      let b ← e
      let bs ← concatAll es
      return b ++ bs

/-- `hashAllObjects`: the hash of the concatenated encodings. An encoder that throws leaves the
empty `MiniData`. -/
def hashAllObjects (C : Crypto) (encodings : List (Result (List Byte))) : MiniData :=
  match concatAll encodings with
  | .ok bytes => ⟨C.hashData bytes⟩
  | .error _ => ⟨[]⟩

/-- `hashObject`. -/
def hashObject (C : Crypto) (encoding : Result (List Byte)) : MiniData := C.hashAllObjects [encoding]

/-- `hashObjects`. -/
def hashObjects (C : Crypto) (left right : Result (List Byte)) : MiniData :=
  C.hashAllObjects [left, right]

@[simp] theorem concatAll_nil : concatAll [] = .ok [] := rfl

@[simp] theorem concatAll_ok_cons (b : List Byte) (es : List (Result (List Byte))) :
    concatAll (.ok b :: es) = (concatAll es).map (b ++ ·) := by
  rw [concatAll]
  cases concatAll es <;> rfl

/-- Objects that all encode are hashed by their concatenated encodings. -/
theorem hashAllObjects_ok (C : Crypto) (bs : List (List Byte)) :
    C.hashAllObjects (bs.map .ok) = ⟨C.hashData bs.flatten⟩ := by
  have h : concatAll (bs.map .ok) = .ok bs.flatten := by
    induction bs with
    | nil => rfl
    | cons b bs ih => rw [List.map_cons, concatAll_ok_cons, ih]; rfl
  rw [hashAllObjects, h]

end Crypto

end Minima
