import Ilang.Util.OrdMap

/-!
# JSON documents

A document as a value, without its text. An object that is filled by `emplace` has its fields in the order of their keys, and
the first value for a key stays. Whatever was put into it is read back.
-/

namespace Ilang

/-- A JSON value. An object is the list of its fields. -/
inductive Json where
  | null
  | bool (b : Bool)
  | int (n : Int)
  | float (text : String)
  | str (s : String)
  | arr (items : List Json)
  | obj (fields : List (String × Json))

namespace Json

/-- `size()`. A value that is neither an array nor an object has size one, and null has none. -/
def size : Json → Nat
  | .null => 0
  | .arr items => items.length
  | .obj fields => fields.length
  | _ => 1

def isArray : Json → Bool
  | .arr _ => true
  | _ => false

def isString : Json → Bool
  | .str _ => true
  | _ => false

def isInt : Json → Bool
  | .int _ => true
  | _ => false

/-- `get<std::string>`. -/
def str? : Json → Option String
  | .str s => some s
  | _ => none

/-- The elements of an array. -/
def items : Json → List Json
  | .arr items => items
  | _ => []

/-- The strings of a value that is a string or an array. -/
def strings : Json → List String
  | .str s => [s]
  | .arr items => items.filterMap str?
  | _ => []

/-- An empty object after a sequence of `emplace`. -/
def object (fs : List (String × Json)) : Json :=
  .obj (fs.foldl (fun m p => m.emplace p.1 p.2) OrdMap.empty).entries

/-- A number. -/
def nat (n : Nat) : Json := .int n

/-- An array of numbers. -/
def nats (ns : List Nat) : Json := .arr (ns.map nat)

/-- `at` with a key. -/
def field (k : String) : Json → Option Json
  | .obj fs => fs.lookup k
  | _ => none

/-- `get<bool>`. -/
def getBool : Json → Option Bool
  | .bool b => some b
  | _ => none

/-- `get<int>`, `get<size_t>` and so on of a number that is not negative. A Boolean is converted too. -/
def getNat : Json → Option Nat
  | .int (.ofNat n) => some n
  | .bool b => some b.toNat
  | _ => none

/-- The elements in a loop over an array. -/
def elems : Json → Option (List Json)
  | .arr items => some items
  | _ => none

/-- The fields in a loop over `items()`. -/
def fields : Json → Option (List (String × Json))
  | .obj fs => some fs
  | _ => none

/-- `at(key).get<size_t>()`. -/
def natAt (k : String) (j : Json) : Option Nat := (j.field k).bind getNat

/-- `at(key).get<std::string>()`. -/
def strAt (k : String) (j : Json) : Option String := (j.field k).bind str?

/-- The loop over `at(key)`. -/
def elemsAt (k : String) (j : Json) : Option (List Json) := (j.field k).bind elems

/-- The loop over `at(key)` that gets a number from every element. -/
def natsAt (k : String) (j : Json) : Option (List Nat) := (j.elemsAt k).bind fun js => js.mapM getNat

/-! ### Reading what was written -/

variable {k : String} {j x : Json} {fs : List (String × Json)}

theorem field_object : (object fs).field k = fs.lookup k := by
  change (fs.foldl (fun m p => m.emplace p.1 p.2) OrdMap.empty).find? k = _
  rw [OrdMap.find?_foldl_emplace]
  rfl

theorem natAt_object {n : Nat} (h : fs.lookup k = some (.nat n)) : (object fs).natAt k = some n := by
  rw [natAt, field_object, h]
  rfl

theorem strAt_object {s : String} (h : fs.lookup k = some (.str s)) : (object fs).strAt k = some s := by
  rw [strAt, field_object, h]
  rfl

theorem elemsAt_object {js : List Json} (h : fs.lookup k = some (.arr js)) : (object fs).elemsAt k = some js := by
  rw [elemsAt, field_object, h]
  rfl

theorem mapM_getNat (ns : List Nat) : (ns.map nat).mapM getNat = some ns := by
  induction ns with
  | nil => rfl
  | cons n ns ih =>
    rw [List.map_cons, List.mapM_cons, ih]
    rfl

theorem natsAt_object {ns : List Nat} (h : fs.lookup k = some (nats ns)) : (object fs).natsAt k = some ns := by
  rw [natsAt, elemsAt_object h]
  exact mapM_getNat ns

/-! ### A loop over the fields goes down -/

theorem sizeOf_field (h : j.field k = some x) : sizeOf x < sizeOf j := by
  cases j with
  | obj fs =>
    have hmem : (k, x) ∈ fs := Entries.mem_of_lookup h
    have hlt := List.sizeOf_lt_of_mem hmem
    simp only [Prod.mk.sizeOf_spec, obj.sizeOf_spec] at hlt ⊢
    omega
  | null | bool b | int n | float t | str s | arr items => cases h

theorem sizeOf_elemsAt {js : List Json} (h : j.elemsAt k = some js) : sizeOf js < sizeOf j := by
  obtain ⟨x, hx, hjs⟩ := Option.bind_eq_some_iff.mp h
  have hlt := sizeOf_field hx
  cases x with
  | arr js' =>
    obtain rfl := Option.some.inj hjs
    simp only [arr.sizeOf_spec] at hlt
    omega
  | null | bool b | int n | float t | str s | obj fs => cases hjs

end Json

end Ilang
