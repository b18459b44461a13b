import Mathlib.Data.List.Pairwise
import Mathlib.Logic.Relation
import Quirrel.Lib.Numbering
import Quirrel.Serialization.Basic

/-!
# String back-references

Whatever the machine does between two records, a visit of the serializer is a sequence of steps on
the stream and on the table of strings (`steps_serializeObject`). The table knows a string by its
address only, and nothing keeps the string of a state object alive once the state is popped. So a
back-reference denotes the right string as long as no address is given to another string
(`backRefsRight_iff`).
-/

set_option autoImplicit false

namespace Quirrel.Serialization

open Quirrel.Lib

variable {σ : Type}

/-! ## Steps -/

/-- Whether the token stands for a string. -/
def Token.isString : Token → Bool
  | .newString .. | .backRef .. => true
  | _ => false

/-- What a step does to the stream and the table of strings. -/
inductive Step (s s' : Serializer σ) : Prop
  | silent (htokens : s'.tokens = s.tokens) (htable : s'.stringTable = s.stringTable)
      (hcounter : s'.stringCounter = s.stringCounter)
  | other (t : Token) (ht : t.isString = false) (htokens : s'.tokens = s.tokens ++ [t])
      (htable : s'.stringTable = s.stringTable) (hcounter : s'.stringCounter = s.stringCounter)
  | newString (a : Nat) (x : List UInt8) (hnone : s.stringTable a = none)
      (htokens : s'.tokens = s.tokens ++ [.newString a x])
      (htable : s'.stringTable = Function.update s.stringTable a (some s.stringCounter))
      (hcounter : s'.stringCounter = s.stringCounter + 1)
  | backRef (a : Nat) (i : UInt32) (x : List UInt8) (hsome : s.stringTable a = some i)
      (htokens : s'.tokens = s.tokens ++ [.backRef a i x])
      (htable : s'.stringTable = s.stringTable) (hcounter : s'.stringCounter = s.stringCounter)

/-- Any number of steps of the serializer. -/
abbrev Steps : Serializer σ → Serializer σ → Prop := Relation.ReflTransGen Step

/-- A token that is no string is one step. -/
theorem Step.emit (s : Serializer σ) {t : Token} (ht : t.isString = false) : Step s (s.emit t) :=
  .other t ht rfl rfl rfl

theorem steps_emit (s : Serializer σ) {t : Token} (ht : t.isString = false) : Steps s (s.emit t) :=
  .single (.emit s ht)

/-- A string is one step. -/
theorem step_serializeString (vm : SerializerVm σ) (str : List UInt8) (s : Serializer σ) :
    Step s (serializeString vm str s) := by
  unfold serializeString
  split
  · exact .emit s rfl
  · split
    · rename_i h
      exact .newString _ _ h rfl rfl rfl
    · rename_i i h
      exact .backRef _ i _ h rfl rfl rfl

/-- Steps and then steps. -/
theorem steps_andThen {s : Serializer σ} {v : Visit σ} {k : Serializer σ → Visit σ}
    (hv : Steps s v.1) (hk : ∀ s', Steps s' (k s').1) : Steps s (v.andThen k).1 := by
  obtain ⟨s', _ | e⟩ := v
  · exact hv.trans (hk s')
  · exact hv

/-- Reading the class names writes nothing. -/
theorem steps_fillAvailableClassNames (vm : SerializerVm σ) (s : Serializer σ) :
    Steps s (fillAvailableClassNames vm s).1 := by
  unfold fillAvailableClassNames
  split
  · exact .refl
  · split
    · exact .single (.silent rfl rfl rfl)
    · exact .refl

/-- The head of an instance is steps. -/
theorem steps_serializeClass (cls : Nat) (name : List UInt8) (s : Serializer σ) :
    Steps s (serializeClass cls name s).1 := by
  unfold serializeClass
  split
  · split
    · exact .refl
    · dsimp only
      split
      · exact .single (.other (.newClass (cString name)) rfl rfl rfl rfl)
      · exact .single (.other (.newClass (cString name)) rfl rfl rfl rfl)
  · exact steps_emit s rfl

/-- The state of an instance is steps. -/
theorem steps_serializeState (vm : SerializerVm σ) {f : Value → Serializer σ → Visit σ}
    (hf : ∀ v s, Steps s (f v s).1) (addr : Nat) (closure : Callable) (s : Serializer σ) :
    Steps s (serializeState vm f addr closure s).1 := by
  unfold serializeState
  split
  · exact .single (.silent rfl rfl rfl)
  · rename_i vm' state _
    -- The call and the pop only change the machine.
    refine .head (b := { s with vm := vm' }) (.silent rfl rfl rfl) ?_
    exact steps_andThen (hf _ _) fun s' => .single (.silent rfl rfl rfl)

/-- An instance is steps. -/
theorem steps_serializeInstance (vm : SerializerVm σ) {f : Value → Serializer σ → Visit σ}
    (hf : ∀ v s, Steps s (f v s).1) (addr : Nat) (s : Serializer σ) :
    Steps s (serializeInstance vm f addr s).1 := by
  refine steps_andThen (steps_fillAvailableClassNames vm s) fun s => ?_
  split
  · exact .refl
  · split
    · exact .refl
    · split
      · exact steps_andThen (steps_serializeClass _ _ s) (steps_serializeState vm hf addr _)
      · exact .refl

/-- An array is steps. -/
theorem steps_serializeAll {f : Value → Serializer σ → Visit σ} (hf : ∀ v s, Steps s (f v s).1)
    (vs : List Value) (s : Serializer σ) : Steps s (serializeAll f vs s).1 := by
  induction vs generalizing s with
  | nil => exact .refl
  | cons v vs ih => exact steps_andThen (hf v s) ih

/-- **A visit is a run of steps**, whatever it visits and whether or not it fails. -/
theorem steps_serializeObject (vm : SerializerVm σ) (n : Nat) (v : Value) (s : Serializer σ) :
    Steps s (serializeObject vm n v s).1 := by
  induction n generalizing v s with
  | zero =>
    cases v with
    | null => exact steps_emit s rfl
    | bool b => exact steps_emit s rfl
    | integer i => exact steps_emit s rfl
    | float w => exact steps_emit s rfl
    | string str => exact .single (step_serializeString vm str s)
    | array elems => exact .refl
    | table entries => exact .refl
    | sqinstance addr => exact .refl
    | unsupported => exact .refl
  | succ n ih =>
    cases v with
    | null => exact steps_emit s rfl
    | bool b => exact steps_emit s rfl
    | integer i => exact steps_emit s rfl
    | float w => exact steps_emit s rfl
    | string str => exact .single (step_serializeString vm str s)
    | array elems =>
      exact (steps_emit s rfl).trans (steps_serializeAll ih elems (s.emit (.array elems.length)))
    | table entries =>
      exact (steps_emit s rfl).trans
        (steps_serializeAll ih (flatEntries entries) (s.emit (.table entries.length)))
    | sqinstance addr => exact steps_serializeInstance vm ih addr s
    | unsupported => exact .refl

/-! ## The stream and the table -/

/-- The address and text of a string written for the first time. -/
def Token.new : Token → Option (Nat × List UInt8)
  | .newString a x => some (a, x)
  | _ => none

/-- The address and text of the string that a token stands for. -/
def Token.visited : Token → Option (Nat × List UInt8)
  | .newString a x => some (a, x)
  | .backRef a _ x => some (a, x)
  | _ => none

/-- The strings that stand in the stream, in the order of their indices, with their addresses. -/
def newStrings (tokens : List Token) : List (Nat × List UInt8) := tokens.filterMap Token.new

/-- The strings that were visited, each with the address that it had at the visit. -/
def stringVisits (tokens : List Token) : List (Nat × List UInt8) := tokens.filterMap Token.visited

/-- The addresses of the strings written, in order. -/
def newAddresses (tokens : List Token) : List Nat := (newStrings tokens).map Prod.fst

/-- The new strings of a stream, part by part. -/
theorem newStrings_append (ts us : List Token) :
    newStrings (ts ++ us) = newStrings ts ++ newStrings us := List.filterMap_append

theorem newAddresses_append (ts us : List Token) :
    newAddresses (ts ++ us) = newAddresses ts ++ newAddresses us := by
  rw [newAddresses, newStrings_append, List.map_append]
  rfl

/-- What the table of strings knows of the stream. -/
structure Tracks (s : Serializer σ) : Prop where
  counter : s.stringCounter = UInt32.ofNat (newAddresses s.tokens).length
  table : s.stringTable = numberOf (newAddresses s.tokens)
  nodup : (newAddresses s.tokens).Nodup
  refs : ∀ (k a : Nat) (i : UInt32) (x : List UInt8), s.tokens[k]? = some (.backRef a i x) →
    numberOf (newAddresses (s.tokens.take k)) a = some i

/-- Before the first token the table is empty. -/
theorem tracks_initial (vm : σ) : Tracks (Serializer.initial vm) where
  counter := rfl
  table := rfl
  nodup := List.nodup_nil
  refs _ _ _ _ h := nomatch h

/-- A record at the end leaves the records before it as they were. -/
theorem getElem?_snoc {α : Type} {l : List α} {x y : α} {k : Nat} (h : (l ++ [x])[k]? = some y) :
    l[k]? = some y ∧ (l ++ [x]).take k = l.take k ∨ k = l.length ∧ x = y := by
  rcases Nat.lt_trichotomy k l.length with hk | rfl | hk
  · rw [List.getElem?_append_left hk] at h
    exact .inl ⟨h, List.take_append_of_le_length (Nat.le_of_lt hk)⟩
  · rw [List.getElem?_concat_length] at h
    exact .inr ⟨rfl, Option.some.inj h⟩
  · rw [List.getElem?_eq_none] at h
    · cases h
    · rw [List.length_append, List.length_singleton]
      exact hk

theorem Tracks.other {s s' : Serializer σ} (h : Tracks s) {t : Token} (ht : t.isString = false)
    (htokens : s'.tokens = s.tokens ++ [t]) (htable : s'.stringTable = s.stringTable)
    (hcounter : s'.stringCounter = s.stringCounter) : Tracks s' := by
  have haddr : newAddresses s'.tokens = newAddresses s.tokens := by
    have hnone : newAddresses [t] = [] := by cases t <;> first | rfl | cases ht
    rw [htokens, newAddresses_append, hnone, List.append_nil]
  constructor
  · rw [hcounter, haddr]
    exact h.counter
  · rw [htable, haddr]
    exact h.table
  · rw [haddr]
    exact h.nodup
  · intro k a i x hk
    rw [htokens] at hk ⊢
    rcases getElem?_snoc hk with ⟨hk, htake⟩ | ⟨-, rfl⟩
    · rw [htake]
      exact h.refs k a i x hk
    · cases ht

/-- One step keeps the string table in line with the tokens. -/
theorem Tracks.step {s s' : Serializer σ} (h : Tracks s) (hstep : Step s s') : Tracks s' := by
  cases hstep with
  | silent htokens htable hcounter =>
    constructor
    · rw [hcounter, htokens]
      exact h.counter
    · rw [htable, htokens]
      exact h.table
    · rw [htokens]
      exact h.nodup
    · rw [htokens]
      exact h.refs
  | other t ht htokens htable hcounter => exact h.other ht htokens htable hcounter
  | newString a x hnone htokens htable hcounter =>
    have haddr : newAddresses s'.tokens = newAddresses s.tokens ++ [a] := by
      rw [htokens, newAddresses_append]
      rfl
    have hnew : a ∉ newAddresses s.tokens := numberOf_eq_none.1 (h.table ▸ hnone)
    constructor
    · rw [hcounter, haddr, h.counter, ofNat_length_snoc]
    · rw [htable, haddr, h.counter, h.table, update_numberOf hnew]
    · rw [haddr, ← List.concat_eq_append]
      exact h.nodup.concat hnew
    · intro k b i y hk
      rw [htokens] at hk ⊢
      rcases getElem?_snoc hk with ⟨hk, htake⟩ | ⟨-, heq⟩
      · rw [htake]
        exact h.refs k b i y hk
      · cases heq
  | backRef a i x hsome htokens htable hcounter =>
    have haddr : newAddresses s'.tokens = newAddresses s.tokens := by
      rw [htokens, newAddresses_append]
      exact List.append_nil _
    constructor
    · rw [hcounter, haddr]
      exact h.counter
    · rw [htable, haddr]
      exact h.table
    · rw [haddr]
      exact h.nodup
    · intro k b j y hk
      rw [htokens] at hk ⊢
      rcases getElem?_snoc hk with ⟨hk, htake⟩ | ⟨rfl, heq⟩
      · rw [htake]
        exact h.refs k b j y hk
      · cases heq
        rw [List.take_left, ← h.table]
        exact hsome

/-- So does every run of the serializer. -/
theorem Tracks.steps {s s' : Serializer σ} (h : Tracks s) (hsteps : Steps s s') : Tracks s' := by
  induction hsteps with
  | refl => exact h
  | tail _ hstep ih => exact ih.step hstep

/-! ## Right references -/

/-- Every back-reference has the index of a string that stands before it in the stream, with the
bytes of the string for which it was written. -/
def BackRefsRight (tokens : List Token) : Prop :=
  ∀ (k a : Nat) (i : UInt32) (x : List UInt8), tokens[k]? = some (.backRef a i x) →
    ((newStrings (tokens.take k))[i.toNat]?).map Prod.snd = some x

/-- A string that is visited at the address of an earlier one is the same string. -/
def AddressesKept (visits : List (Nat × List UInt8)) : Prop :=
  visits.Pairwise fun p q => p.1 = q.1 → p.2 = q.2

theorem newStrings_sublist_visits (tokens : List Token) :
    ∀ p ∈ newStrings tokens, p ∈ stringVisits tokens := by
  intro p hp
  obtain ⟨t, ht, heq⟩ := List.mem_filterMap.1 hp
  refine List.mem_filterMap.2 ⟨t, ht, ?_⟩
  cases t <;> first | exact heq | cases heq

/-- The string under the number of an address, while there are numbers. -/
theorem newStrings_of_numberOf {tokens : List Token} {a : Nat} {i : UInt32}
    (h : numberOf (newAddresses tokens) a = some i) (hl : (newStrings tokens).length ≤ 2 ^ 32) :
    ∃ x, (newStrings tokens)[i.toNat]? = some (a, x) := by
  have haddr := getElem?_of_numberOf h (by rwa [newAddresses, List.length_map])
  rw [newAddresses, List.getElem?_map, Option.map_eq_some_iff] at haddr
  obtain ⟨⟨b, x⟩, hx, rfl⟩ := haddr
  exact ⟨x, hx⟩

theorem length_newStrings_take (tokens : List Token) (k : Nat) :
    (newStrings (tokens.take k)).length ≤ (newStrings tokens).length :=
  ((List.take_sublist k tokens).filterMap Token.new).length_le

/-- With addresses kept, every reference has the right index. -/
theorem backRefsRight_of_tracks {s : Serializer σ} (h : Tracks s)
    (hl : (newStrings s.tokens).length ≤ 2 ^ 32) (hkept : AddressesKept (stringVisits s.tokens)) :
    BackRefsRight s.tokens := by
  intro k a i x hk
  obtain ⟨y, hy⟩ := newStrings_of_numberOf (h.refs k a i x hk)
    (Nat.le_trans (length_newStrings_take s.tokens k) hl)
  rw [hy]
  -- The string under the index was visited before, at the same address.
  have hbefore := newStrings_sublist_visits _ _ (List.mem_of_getElem? hy)
  obtain ⟨hlt, heq⟩ := List.getElem?_eq_some_iff.1 hk
  have hsplit : s.tokens = s.tokens.take k ++ .backRef a i x :: s.tokens.drop (k + 1) := by
    rw [← heq, List.getElem_cons_drop, List.take_append_drop]
  rw [hsplit, AddressesKept, stringVisits, List.filterMap_append, List.pairwise_append] at hkept
  exact congrArg some (hkept.2.2 (a, y) hbefore (a, x) List.mem_cons_self rfl)

/-- With right references every string seen was written once. -/
theorem mem_newStrings_of_right {s : Serializer σ} (h : Tracks s)
    (hl : (newStrings s.tokens).length ≤ 2 ^ 32) (hright : BackRefsRight s.tokens)
    {p : Nat × List UInt8} (hp : p ∈ stringVisits s.tokens) : p ∈ newStrings s.tokens := by
  obtain ⟨t, ht, heq⟩ := List.mem_filterMap.1 hp
  cases t with
  | newString a x =>
    cases heq
    exact List.mem_filterMap.2 ⟨_, ht, rfl⟩
  | backRef a i x =>
    cases heq
    obtain ⟨k, hk⟩ := List.mem_iff_getElem?.1 ht
    obtain ⟨y, hy⟩ := newStrings_of_numberOf (h.refs k a i x hk)
      (Nat.le_trans (length_newStrings_take s.tokens k) hl)
    have hsame := hright k a i x hk
    rw [hy] at hsame
    cases hsame
    exact ((List.take_sublist k s.tokens).filterMap Token.new).subset (List.mem_of_getElem? hy)
  | _ => cases heq

/-- Right references mean that the addresses were kept. -/
theorem addressesKept_of_right {s : Serializer σ} (h : Tracks s)
    (hl : (newStrings s.tokens).length ≤ 2 ^ 32) (hright : BackRefsRight s.tokens) :
    AddressesKept (stringVisits s.tokens) := by
  refine List.pairwise_of_forall_mem_list fun p hp q hq heq => ?_
  have hp := mem_newStrings_of_right h hl hright hp
  have hq := mem_newStrings_of_right h hl hright hq
  exact congrArg Prod.snd (List.inj_on_of_nodup_map h.nodup hp hq heq)

/-- **Back-references.** In every call, as long as `2 ^ 32` numbers are enough, the back-references
are right if and only if no address is given to another string while the call lasts. -/
theorem backRefsRight_iff (vm : SerializerVm σ) (st : σ) (n : Nat) (v : Value)
    (hl : (newStrings (serializeObject vm n v (Serializer.initial st)).1.tokens).length ≤ 2 ^ 32) :
    BackRefsRight (serializeObject vm n v (Serializer.initial st)).1.tokens ↔
      AddressesKept (stringVisits (serializeObject vm n v (Serializer.initial st)).1.tokens) := by
  have h := (tracks_initial st).steps (steps_serializeObject vm n v (Serializer.initial st))
  exact ⟨addressesKept_of_right h hl, backRefsRight_of_tracks h hl⟩

/-! ## A reused address -/

/-- A machine that counts the state objects that were popped. The instance `1` has the state `"a"`,
any other the state `"b"`; the memory of `"a"` is given to `"b"` once the first state is popped. -/
def reusingMachine : SerializerVm Nat where
  address pops s := if s = (if pops = 0 then [97] else [98]) then 100 else 200
  classNames _ := .ok [(0, [67])]
  classOf _ _ := 0
  getstate _ _ := some (.closure 1 0 false)
  callGetstate pops addr _ := (pops, some (.string (if addr = 1 then [97] else [98])))
  popState pops _ := pops + 1

/-- Two instances whose states are strings at one address. -/
theorem instances_tokens :
    (serializeObject reusingMachine maxDepth (.array [.sqinstance 1, .sqinstance 2])
      (Serializer.initial 0)).1.tokens =
    [.array 2, .newClass [67], .newString 100 [97], .classRef 0, .backRef 100 0 [98]] := rfl

/-- One instance and then another string. -/
theorem backRefsRight_same_instance :
    BackRefsRight (serializeObject reusingMachine maxDepth
      (.array [.sqinstance 2, .string [98]]) (Serializer.initial 1)).1.tokens :=
  (backRefsRight_iff reusingMachine 1 maxDepth _ (by decide)).2 (by
    have htokens : (serializeObject reusingMachine maxDepth (.array [.sqinstance 2, .string [98]])
        (Serializer.initial 1)).1.tokens =
          [.array 2, .newClass [67], .newString 100 [98], .backRef 100 0 [98]] := rfl
    rw [htokens]
    exact List.pairwise_pair.2 fun _ => rfl)

/-- An address that is used again gives a wrong reference. -/
theorem reused_address_not_right :
    (∀ pops, reusingMachine.address pops [97] ≠ reusingMachine.address pops [98]) ∧
      ¬ BackRefsRight (serializeObject reusingMachine maxDepth
        (.array [.sqinstance 1, .sqinstance 2]) (Serializer.initial 0)).1.tokens := by
  constructor
  · intro pops
    by_cases h : pops = 0 <;> simp [reusingMachine, h]
  · rw [instances_tokens]
    intro hright
    exact absurd (hright 4 100 0 [98] rfl) (by decide)

end Quirrel.Serialization
