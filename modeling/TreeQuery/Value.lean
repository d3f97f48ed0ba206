import TreeQuery.Fields
import TreeQuery.Number.Binary64

/-! Property values: null, truth values, numbers, text, lists of values, and objects, whose fields
are kept in the order of their names. -/

namespace TreeQuery

inductive Value where
  | null
  | bool (b : Bool)
  | integer (i : Int)
  | float (x : Binary64)
  | text (s : String)
  | array (items : List Value)
  | object (fields : List (String × Value))

namespace Value

instance : Inhabited Value := ⟨null⟩

def ofFields (fields : List (String × Value)) : Value :=
  object (fields.foldl (fun acc field => insertField field.1 field.2 acc) [])

mutual

/-- An integer is never a float; floats are compared as numbers, all else by structure. -/
def same : Value → Value → Bool
  | null, null => true
  | bool a, bool b => a == b
  | integer a, integer b => a == b
  | float a, float b => a.same b
  | text a, text b => a == b
  | array as, array bs => sameItems as bs
  | object as, object bs => sameFields as bs
  | _, _ => false

def sameItems : List Value → List Value → Bool
  | [], [] => true
  | a :: as, b :: bs => a.same b && sameItems as bs
  | _, _ => false

def sameFields : List (String × Value) → List (String × Value) → Bool
  | [], [] => true
  | (name, a) :: as, (other, b) :: bs => name == other && a.same b && sameFields as bs
  | _, _ => false

end

@[elab_as_elim, induction_eliminator]
theorem induction {motive : Value → Prop} (null : motive .null) (bool : ∀ b, motive (.bool b))
    (integer : ∀ i, motive (.integer i)) (float : ∀ x, motive (.float x))
    (text : ∀ s, motive (.text s))
    (array : ∀ items, (∀ v ∈ items, motive v) → motive (.array items))
    (object : ∀ fields, (∀ f ∈ fields, motive f.2) → motive (.object fields))
    (v : Value) : motive v :=
  @Value.rec motive (fun vs => ∀ v ∈ vs, motive v) (fun fs => ∀ f ∈ fs, motive f.2)
    (fun f => motive f.2) null bool integer float text array object
    (fun _ h => absurd h List.not_mem_nil)
    (fun _ _ hv hvs _ h => (List.mem_cons.mp h).elim (fun he => he ▸ hv) (hvs _))
    (fun _ h => absurd h List.not_mem_nil)
    (fun _ _ hf hfs _ h => (List.mem_cons.mp h).elim (fun he => he ▸ hf) (hfs _))
    (fun _ _ hv => hv) v

/-- The value as a signed 64-bit integer, if it is one. -/
def toSigned? : Value → Option Int
  | integer i => if -Int.pow 2 63 ≤ i ∧ i < Int.pow 2 63 then some i else none
  | _ => none

end Value

end TreeQuery
