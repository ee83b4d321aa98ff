import CppBackend.Library.Loop
import CppBackend.Library.Sorting
import Mathlib.Algebra.Group.Nat.Defs

/-!
# The sorting strategies

Model of `Cpp_Design_Mode/StrategyMode.cpp`: the two loops of `BubbleSort::sort` with their `int`
variables, `QuickSort::sort`, which hands the vector to `std::sort`, and `Sorter::sortData`.  An access
`vec[j]` outside of the vector ends the model of the loop (`outOfRange`); `std::sort` is a parameter.
-/

set_option autoImplicit false

namespace CppBackend.StrategyMode

open Library.Loop Library.Sorting

/-- How a call of `sort` ends: at an access outside of the vector, or with the vector. -/
inductive Sorted where
  | outOfRange (index : Int)
  | vec (v : List Int)
  deriving DecidableEq, Repr

/-- `vec[j]`. -/
def get (vec : List Int) (j : Int) : Option Int := if 0 ≤ j then vec[j.toNat]? else none

namespace BubbleSort

/-- `int n = vec.size()`. -/
def size (vec : List Int) : Int := (BitVec.ofNat 32 vec.length).toInt

/-- The variables of the inner loop. -/
structure Inner where
  vec : List Int
  j : Int

/-- One pass of `for (int j = 0; j < n-i-1; ++j)`. -/
def innerStep (n i : Int) (s : Inner) : Pass Inner Sorted :=
  if s.j < n - i - 1 then
    match get s.vec s.j, get s.vec (s.j + 1) with
    | some a, some b =>
      if a > b then .again ⟨swap s.vec s.j.toNat (s.j + 1).toNat, s.j + 1⟩
      else .again ⟨s.vec, s.j + 1⟩
    | none, _ => .done (.outOfRange s.j)
    | some _, none => .done (.outOfRange (s.j + 1))
  else .done (.vec s.vec)

/-- The inner loop; `j` goes up with every pass. -/
def inner (n i : Int) (vec : List Int) : Option Sorted :=
  run (innerStep n i) ((n - i).toNat + 1) ⟨vec, 0⟩

/-- The variables of the outer loop. -/
structure Outer where
  vec : List Int
  i : Int

/-- One pass of `for (int i = 0; i < n-1; ++i)`. -/
def outerStep (n : Int) (s : Outer) : Pass Outer (Option Sorted) :=
  if s.i < n - 1 then
    match inner n s.i s.vec with
    | some (.vec v) => .again ⟨v, s.i + 1⟩
    | r => .done r
  else .done (some (.vec s.vec))

def sort (vec : List Int) : Option Sorted :=
  (run (outerStep (size vec)) ((size vec).toNat + 1) ⟨vec, 0⟩).join

end BubbleSort

namespace QuickSort

/-- `std::sort(vec.begin(), vec.end())`. -/
def sort (stdSort : List Int → List Int) (vec : List Int) : Option Sorted := some (.vec (stdSort vec))

end QuickSort

inductive SortStrategy where
  | bubbleSort
  | quickSort
  deriving DecidableEq, Repr

namespace SortStrategy

/-- The line that the strategy prints first. -/
def banner : SortStrategy → String
  | bubbleSort => "使用冒泡排序"
  | quickSort => "使用快速排序"

def sort (stdSort : List Int → List Int) : SortStrategy → List Int → Option Sorted
  | bubbleSort => BubbleSort.sort
  | quickSort => QuickSort.sort stdSort

end SortStrategy

/-- What a call of `sortData` leaves in the vector and prints. -/
structure Done where
  vec : List Int
  cout : List String
  cerr : List String
  deriving DecidableEq, Repr

namespace Sorter

/-- The numbers of the vector, each with a blank behind it. -/
def shown (vec : List Int) : String := String.join (vec.map fun num => toString num ++ " ")

/-- `strategy` is null after `setStrategy(nullptr)`. -/
def sortData (stdSort : List Int → List Int) (strategy : Option SortStrategy) (vec : List Int) :
    Option Done :=
  match strategy with
  | none => some ⟨vec, [], ["错误：未设置排序策略！"]⟩
  | some s =>
    match s.sort stdSort vec with
    | some (.vec v) => some ⟨v, [s.banner, shown v], []⟩
    | _ => none

end Sorter

end CppBackend.StrategyMode
