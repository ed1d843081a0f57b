import Ilang.Ila.Ast
import Ilang.Util.Container
import Mathlib.Logic.Relation

/-!
# Containers of variables

A container is a tree over variables: vectors of elements, and structures of named members. Every container stores its
sort beside its data, and the operations make both anew, independently of each other. The sorts do not reject a
structure with two members of one name, which the maps from names to members cannot tell apart.

Assertions are not compiled into a release build. Pointers can be null, so `null` is a sort and a container here, and
an operation that dereferences one has no result.
-/

namespace Ilang

open Smt

/-! ### Sorts and containers -/

/-- `SortPtr` with the composite sorts. -/
inductive VarSort where
  | null
  | bool
  | bv (bitWidth : Nat)
  | mem (addrWidth dataWidth : Nat)
  | vec (dataAtom : VarSort) (size : Nat)
  | struct (members : List (String × VarSort))

/-- A pointer to a variable. -/
structure LeafExpr where
  id : Nat
  name : String
  sort : Srt
  deriving DecidableEq, Repr

/-- `VarContainerPtr`. -/
inductive VarContainer where
  | null
  | primitive (var : LeafExpr)
  | vector (sort : VarSort) (elems : List VarContainer)
  | struct (sort : VarSort) (members : List (String × VarContainer))

namespace VarSort

def ofSrt : Srt → VarSort
  | .bool => .bool
  | .bv w => .bv w
  | .mem a d => .mem a d

/-- `Sort::data_atom`. -/
def dataAtom : VarSort → Option VarSort
  | .null => none
  | .vec da _ => some da
  | _ => some .null

/-- `Sort::members`. -/
def members : VarSort → Option (List (String × VarSort))
  | .null => none
  | .struct ms => some ms
  | _ => some []

/-- `Sort::get_member_sort`. -/
def getMemberSort : VarSort → String → Option VarSort
  | .null, _ => none
  | .struct ms, name => some ((ms.lookup name).getD .null)
  | _, _ => some .null

mutual

/-- No structure has two members of one name, at any level, and no sort is missing. -/
def Ok : VarSort → Prop
  | .null => False
  | .vec da _ => Ok da
  | .struct ms => (ms.map Prod.fst).Nodup ∧ OkAll ms
  | _ => True

def OkAll : List (String × VarSort) → Prop
  | [] => True
  | (_, s) :: ms => Ok s ∧ OkAll ms

end

end VarSort

namespace VarContainer

/-- `VarContainer::sort`. -/
def sort : VarContainer → Option VarSort
  | .null => none
  | .primitive e => some (.ofSrt e.sort)
  | .vector s _ => some s
  | .struct s _ => some s

/-- `VarContainer::members`. -/
def members : VarContainer → Option (List (String × VarContainer))
  | .null => none
  | .struct _ ms => some ms
  | _ => some []

mutual

/-- The lengths, the member names in their order and the leaf sorts are those of the sort, at every level. -/
def Fits : VarContainer → VarSort → Prop
  | .null, _ => False
  | .primitive e, s => s = .ofSrt e.sort
  | .vector t cs, s => t = s ∧ ∃ da, s = .vec da cs.length ∧ FitsAll cs da
  | .struct t ms, s => t = s ∧ ∃ ss, s = .struct ss ∧ FitsMembers ms ss

def FitsAll : List VarContainer → VarSort → Prop
  | [], _ => True
  | c :: cs, s => Fits c s ∧ FitsAll cs s

def FitsMembers : List (String × VarContainer) → List (String × VarSort) → Prop
  | [], [] => True
  | (n, c) :: ms, (n', s) :: ss => n = n' ∧ Fits c s ∧ FitsMembers ms ss
  | _, _ => False

end

end VarContainer

/-! ### Construction -/

/-- A map over a list with a counter, which stops where the function has no result. -/
def mapCount {α β : Type} (f : α → Nat → Option (β × Nat)) : List α → Nat → Option (List β × Nat)
  | [], i => some ([], i)
  | a :: as, i => (f a i).bind fun (b, i') => (mapCount f as i').map fun (bs, i'') => (b :: bs, i'')

namespace VarContainer

mutual

/-- `VarContainer::Make`, with the counter that identifies new variables. -/
def make : VarSort → String → Nat → Option (VarContainer × Nat)
  | .null, _, _ => none
  | .bool, name, i => some (.primitive ⟨i, name, .bool⟩, i + 1)
  | .bv w, name, i => some (.primitive ⟨i, name, .bv w⟩, i + 1)
  | .mem a d, name, i => some (.primitive ⟨i, name, .mem a d⟩, i + 1)
  | .vec da n, name, i =>
    (mapCount (fun k => make da (name ++ "_" ++ toString k ++ "_")) (List.range n) i).map fun (cs, i') =>
      (.vector (.vec da n) cs, i')
  | .struct ms, name, i => (makeMembers ms name i).map fun (l, i') => (.struct (.struct ms) l, i')

def makeMembers : List (String × VarSort) → String → Nat → Option (List (String × VarContainer) × Nat)
  | [], _, i => some ([], i)
  | (m, s) :: ms, name, i => (make s (name ++ "_" ++ m ++ "_") i).bind fun (c, i') =>
    (makeMembers ms name i').map fun (l, i'') => ((m, c) :: l, i'')

end

end VarContainer

/-- What `from_cpp_obj` accepts: vectors, vectors of pairs and maps, over expressions and containers. A map is the list of
its entries. -/
inductive CppObj where
  | vec (elems : List CppObj)
  | pairs (entries : List (String × CppObj))
  | expr (e : Option LeafExpr)
  | container (c : VarContainer)

namespace CppObj

mutual

/-- `VarContainer::from_cpp_obj`. -/
def toContainer (sort : VarSort) : CppObj → Option VarContainer
  | .vec xs => (toElems sort xs).map (.vector sort)
  | .pairs ps => (toMembers sort ps []).bind fun found => sort.members.map fun ss =>
    .struct sort (ss.map fun s => (s.1, (found.lookup s.1).getD .null))
  | .expr none => none
  | .expr (some e) => some (.primitive e)
  | .container c => some c

def toElems (sort : VarSort) : List CppObj → Option (List VarContainer)
  | [] => some []
  | x :: xs => sort.dataAtom.bind fun da => (toContainer da x).bind fun c => (toElems sort xs).map (c :: ·)

/-- The map of the members so far. An entry that is there stays. -/
def toMembers (sort : VarSort) : List (String × CppObj) → List (String × VarContainer) →
    Option (List (String × VarContainer))
  | [], found => some found
  | (name, x) :: ps, found => (sort.getMemberSort name).bind fun s => (toContainer s x).bind fun c =>
    toMembers sort ps (KeyVec.pushBack Prod.fst found (name, c))

end

mutual

/-- The assertions of `from_cpp_obj`. -/
def Accepted (sort : VarSort) : CppObj → Prop
  | .vec xs => ∃ da, sort = .vec da xs.length ∧ AcceptedElems da xs
  | .pairs ps => ∃ ss, sort = .struct ss ∧ AcceptedMembers ss ps ∧ ∀ s ∈ ss, s.1 ∈ ps.map Prod.fst
  | .expr e => ∃ v, e = some v ∧ sort = .ofSrt v.sort
  | .container c => c.sort = some sort

def AcceptedElems (da : VarSort) : List CppObj → Prop
  | [] => True
  | x :: xs => Accepted da x ∧ AcceptedElems da xs

def AcceptedMembers (ss : List (String × VarSort)) : List (String × CppObj) → Prop
  | [] => True
  | (name, x) :: ps => (∃ s, ss.lookup name = some s ∧ Accepted s x) ∧ AcceptedMembers ss ps

end

mutual

/-- The containers in an object. -/
def containers : CppObj → List VarContainer
  | .vec xs => containersElems xs
  | .pairs ps => containersMembers ps
  | .expr _ => []
  | .container c => [c]

def containersElems : List CppObj → List VarContainer
  | [] => []
  | x :: xs => containers x ++ containersElems xs

def containersMembers : List (String × CppObj) → List VarContainer
  | [] => []
  | (_, x) :: ps => containers x ++ containersMembers ps

end

end CppObj

/-! ### Operations -/

namespace VarContainer

/-- Entries that are containers themselves. -/
def entries (ms : List (String × VarContainer)) : CppObj := .pairs (ms.map fun m => (m.1, .container m.2))

/-- `VarContainer::nth`. -/
def nth : VarContainer → Nat → Option VarContainer
  | .null, _ => none
  | .vector _ cs, i => some (cs.getD i .null)
  | _, _ => some .null

/-- `VarContainer::member`. -/
def member : VarContainer → String → Option VarContainer
  | .null, _ => none
  | .struct _ ms, name => some ((ms.lookup name).getD .null)
  | _, _ => some .null

def projectLoop (ms : List (String × VarContainer)) : List String → List (String × VarSort) →
    List (String × VarContainer) → Option VarContainer
  | [], srt, projection => (entries projection).toContainer (.struct srt)
  | name :: names, srt, projection =>
    match ms.lookup name with
    | none => some .null
    | some c => c.sort.bind fun s => projectLoop ms names (srt ++ [(name, s)]) (projection ++ [(name, c)])

/-- `VarContainer::project`. -/
def project : VarContainer → List String → Option VarContainer
  | .null, _ => none
  | .struct _ ms, names => projectLoop (KeyVec.ofList Prod.fst ms) names [] []
  | _, _ => some .null

/-- `VarContainer::project_without`. -/
def projectWithout : VarContainer → List String → Option VarContainer
  | .null, _ => none
  | .struct s ms, names =>
    let left := (KeyVec.ofList Prod.fst ms).filter fun m => m.1 ∉ names
    s.members.bind fun ss =>
      (entries left).toContainer (.struct (ss.filter fun x => x.1 ∈ left.map Prod.fst))
  | _, _ => some .null

/-- `VarContainer::join_with`. -/
def joinWith : VarContainer → VarContainer → Option VarContainer
  | .null, _ => none
  | .struct _ _, .null => none
  | .struct s ms, .struct s' ms' =>
    let joined := KeyVec.ofList Prod.fst (ms ++ ms')
    if joined.length ≠ ms.length + ms'.length then some .null
    else s.members.bind fun ss => s'.members.bind fun ss' => (entries joined).toContainer (.struct (ss ++ ss'))
  | _, _ => some .null

/-- The elements go to their parts. Without a result a part does not exist. -/
def partitionLoop (whichPart : Nat → Nat) : List VarContainer → Nat → List (List VarContainer) →
    Option (List (List VarContainer))
  | [], _, parts => some parts
  | c :: cs, i, parts =>
    if whichPart i < parts.length then partitionLoop whichPart cs (i + 1) (parts.modify (whichPart i) (· ++ [c]))
    else none

/-- `VarContainer::order_preserving_partition`. -/
def orderPreservingPartition : VarContainer → Nat → (Nat → Nat) → Option (List VarContainer)
  | .null, _, _ => none
  | .vector s cs, nParts, whichPart =>
    match partitionLoop whichPart cs 0 (List.replicate nParts []) with
    | none => some []
    | some parts => parts.mapM fun part => s.dataAtom.bind fun da =>
      CppObj.toContainer (.vec da part.length) (.vec (part.map .container))
  | _, _, _ => some []

/-- `res[name].push_back(m)`. -/
def pushAt (res : List (String × List VarContainer)) (m : String × VarContainer) : List (String × List VarContainer) :=
  if m.1 ∈ res.map Prod.fst then res.map fun r => if r.1 = m.1 then (r.1, r.2 ++ [m.2]) else r
  else res ++ [(m.1, [m.2])]

def unzipLoop : List VarContainer → List (String × List VarContainer) → Option (List (String × List VarContainer))
  | [], res => some res
  | x :: xs, res => x.members.bind fun ms => unzipLoop xs (ms.foldl pushAt res)

/-- `VarContainer::unzip`. -/
def unzip : VarContainer → Option VarContainer
  | .null => none
  | .vector s cs => s.dataAtom.bind fun da =>
    match da with
    | .null => none
    | .struct [] => some .null
    | .struct ss =>
      (unzipLoop cs (KeyVec.ofList Prod.fst (ss.map fun x => (x.1, [])))).bind fun res =>
        CppObj.toContainer (.struct (ss.map fun x => (x.1, .vec x.2 cs.length)))
          (.pairs (res.map fun r => (r.1, .vec (r.2.map .container))))
    | _ => some .null
  | _ => some .null

/-- The sorts of the elements, and the size of the vectors so far. The function returns early at another sort and at a
vector of another size. -/
def zipSorts : List (String × VarSort) → Option Nat → List (String × VarSort) →
    Except (Option VarContainer) (Option Nat × List (String × VarSort))
  | [], sz, da => .ok (sz, da)
  | (_, .null) :: _, _, _ => .error none
  | (name, .vec s n) :: ss, none, da => zipSorts ss (some n) (da ++ [(name, s)])
  | (name, .vec s n) :: ss, some sz, da => if sz = n then zipSorts ss (some sz) (da ++ [(name, s)]) else .error (some .null)
  | _ :: _, _, _ => .error (some .null)

/-- The elements of the vectors at one index. -/
def zipRow (ms : List (String × VarContainer)) (i : Nat) : Option (List (String × VarContainer)) :=
  ms.mapM fun m => (m.2.nth i).map fun c => (m.1, c)

/-- `VarContainer::zip`. A vector cannot be made of a negative size. -/
def zip : VarContainer → Option VarContainer
  | .null => none
  | .struct s ms =>
    if ms.isEmpty then some .null
    else s.members.bind fun ss =>
      match zipSorts ss none [] with
      | .error res => res
      | .ok (none, _) => none
      | .ok (some sz, da) => ((List.range sz).mapM (zipRow ms)).bind fun rows =>
        CppObj.toContainer (.vec (.struct da) sz) (.vec (rows.map entries))
  | _ => some .null

end VarContainer

/-! ### Runs -/

/-- The containers that there are, and the counter of the variables. -/
structure VarPool where
  next : Nat
  pool : List VarContainer

inductive VarOp where
  | make (name : String) (sort : VarSort)
  | fromCppObj (sort : VarSort) (obj : CppObj)
  | nth (c : VarContainer) (idx : Nat)
  | member (c : VarContainer) (name : String)
  | project (c : VarContainer) (names : List String)
  | projectWithout (c : VarContainer) (names : List String)
  | joinWith (c b : VarContainer)
  | partition (c : VarContainer) (nParts : Nat) (whichPart : Nat → Nat)
  | zip (c : VarContainer)
  | unzip (c : VarContainer)

namespace VarOp

/-- The containers that an operation is given. -/
def args : VarOp → List VarContainer
  | .make .. => []
  | .fromCppObj _ obj => obj.containers
  | .nth c _ | .member c _ | .project c _ | .projectWithout c _ | .partition c .. | .zip c | .unzip c => [c]
  | .joinWith c b => [c, b]

/-- What an operation returns, and the counter after it. -/
def run : VarOp → Nat → Option (List VarContainer × Nat)
  | .make name sort, i => (VarContainer.make sort name i).map fun (c, i') => ([c], i')
  | .fromCppObj sort obj, i => (obj.toContainer sort).map fun c => ([c], i)
  | .nth c idx, i => (c.nth idx).map fun r => ([r], i)
  | .member c name, i => (c.member name).map fun r => ([r], i)
  | .project c names, i => (c.project names).map fun r => ([r], i)
  | .projectWithout c names, i => (c.projectWithout names).map fun r => ([r], i)
  | .joinWith c b, i => (c.joinWith b).map fun r => ([r], i)
  | .partition c nParts whichPart, i => (c.orderPreservingPartition nParts whichPart).map fun rs => (rs, i)
  | .zip c, i => c.zip.map fun r => ([r], i)
  | .unzip c, i => c.unzip.map fun r => ([r], i)

/-- The operations that are given sorts and names without duplicates, and objects of the sort. -/
def Ok : VarOp → Prop
  | .make _ sort => sort.Ok
  | .fromCppObj sort obj => sort.Ok ∧ obj.Accepted sort
  | .project _ names => names.Nodup
  | _ => True

end VarOp

def VarContainer.isNull : VarContainer → Bool
  | .null => true
  | _ => false

/-- An operation on containers that there are, or on null pointers. What it returns is there from then on. -/
inductive VarStep (op : VarOp) (s : VarPool) : VarPool → Prop
  | mk {cs : List VarContainer} {next : Nat} : (∀ c ∈ op.args, c.isNull ∨ c ∈ s.pool) →
    op.run s.next = some (cs, next) → VarStep op s ⟨next, s.pool ++ cs.filter fun c => !c.isNull⟩

def VarPool.init : VarPool := ⟨0, []⟩

end Ilang
