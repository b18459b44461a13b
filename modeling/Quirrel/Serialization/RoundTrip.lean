import Mathlib.Data.Set.Function
import Quirrel.Lib.Numbering
import Quirrel.Serialization.Restore

/-!
# Round trips

The reader makes of the records of a tree the restored tree, and leaves what follows them
(`deserialize_serialize`). Reader and writer number the strings of the stream alike, through all
containers (`Linked`).
-/

set_option autoImplicit false

namespace Quirrel.Serialization

open Quirrel.Lib Quirrel.Vm

variable {σ τ : Type}

/-! ## Numbering of the strings -/

/-- The writer has numbered the strings `seen`, in this order. -/
structure Linked (address : List UInt8 → Nat) (U : Set (List UInt8)) (s : Serializer σ)
    (seen : List (List UInt8)) : Prop where
  counter : s.stringCounter = UInt32.ofNat seen.length
  index : ∀ x ∈ U, s.stringTable (address x) = numberOf seen x

/-- A token that is no string keeps the link. -/
theorem Linked.emit {address : List UInt8 → Nat} {U : Set (List UInt8)} {s : Serializer σ}
    {seen : List (List UInt8)} (h : Linked address U s seen) (t : Token) :
    Linked address U (s.emit t) seen :=
  ⟨h.counter, h.index⟩

/-- A string that gets the next index. -/
theorem Linked.newString {address : List UInt8 → Nat} {U : Set (List UInt8)} {s : Serializer σ}
    {seen : List (List UInt8)} (h : Linked address U s seen) (haddr : Set.InjOn address U)
    {str : List UInt8} (hU : str ∈ U) (hnew : str ∉ seen) (t : Token) :
    Linked address U { s.emit t with
      stringTable := Function.update s.stringTable (address str) (some s.stringCounter)
      stringCounter := s.stringCounter + 1 } (seen ++ [str]) := by
  constructor
  · show s.stringCounter + 1 = _
    rw [h.counter, ofNat_length_snoc]
  · intro x hx
    show Function.update s.stringTable (address str) (some s.stringCounter) (address x) = _
    by_cases heq : x = str
    · rw [heq, Function.update_self, h.counter, numberOf_snoc_self hnew]
    · rw [Function.update_of_ne (fun ha => heq (haddr hx hU ha)), h.index x hx,
        numberOf_snoc_of_ne heq]

/-! ## One record -/

/-- The reader makes of the records `toks` the value `v`, at any place of a stream that has named
the strings `seen` before, when `n` further levels fit on the stack. -/
def ReadsBack (vm : DeserializerVm τ) (n : Nat) (toks : List Token) (v : Value)
    (seen seen' : List (List UInt8)) : Prop :=
  0 < (encodeAll toks).length ∧
  ∀ (fuel top : Nat) (d : Deserializer τ) (rest : List UInt8),
    (encodeAll toks).length ≤ fuel → top + 2 * n + 1 ≤ stackGrowThreshold →
    d.input = encodeAll toks ++ rest → d.stringList = seen →
      deserializeObject vm fuel top d = .ok (v, { d with input := rest, stringList := seen' })

/-- A scalar is read by its tag and its bytes. -/
theorem deserializeObject_scalar {vm : DeserializerVm τ} {fuel top : Nat} {d : Deserializer τ}
    {t : UInt8} {body : List UInt8} {r : Value × Deserializer τ} (h : d.input = t :: body)
    (hr : t.toNat / 16 = 2 ∧ deserializeInteger (t.toNat % 16) { d with input := body } = .ok r ∨
      t.toNat / 16 = 3 ∧ deserializeFloat (t.toNat % 16) { d with input := body } = .ok r ∨
      t.toNat / 16 = 4 ∧ deserializeString (t.toNat % 16) { d with input := body } = .ok r)
    (htop : top + 1 ≤ stackGrowThreshold) : deserializeObject vm (fuel + 1) top d = .ok r := by
  rcases hr with ⟨ht, hr⟩ | ⟨ht, hr⟩ | ⟨ht, hr⟩
  all_goals
    simp only [deserializeObject, readWord_byte h, ht, hr, useSlots_of_le htop, bind, Except.bind,
      pure, Except.pure]

theorem encodeAll_singleton (t : Token) : encodeAll [t] = t.encode := List.flatMap_singleton _ t

/-- The bytes of tokens, part by part. -/
theorem encodeAll_append (ts us : List Token) :
    encodeAll (ts ++ us) = encodeAll ts ++ encodeAll us := List.flatMap_append

/-- A record that is read by itself. -/
theorem ReadsBack.scalar {vm : DeserializerVm τ} {n : Nat} {tok : Token} {t : UInt8}
    {body : List UInt8} {v : Value} {seen seen' : List (List UInt8)}
    (henc : tok.encode = t :: body)
    (hread : ∀ (d : Deserializer τ) rest, d.input = body ++ rest → d.stringList = seen →
      t.toNat / 16 = 2 ∧ deserializeInteger (t.toNat % 16) d =
        .ok (v, { d with input := rest, stringList := seen' }) ∨
      t.toNat / 16 = 3 ∧ deserializeFloat (t.toNat % 16) d =
        .ok (v, { d with input := rest, stringList := seen' }) ∨
      t.toNat / 16 = 4 ∧ deserializeString (t.toNat % 16) d =
        .ok (v, { d with input := rest, stringList := seen' })) :
    ReadsBack vm n [tok] v seen seen' := by
  unfold ReadsBack
  rw [encodeAll_singleton, henc]
  refine ⟨Nat.zero_lt_succ _, ?_⟩
  intro fuel top d rest hfuel htop hd hseen
  obtain ⟨fuel, rfl⟩ := Nat.exists_eq_succ_of_ne_zero
    (Nat.ne_of_gt (Nat.lt_of_lt_of_le (Nat.zero_lt_succ _) hfuel))
  exact deserializeObject_scalar hd (hread { d with input := body ++ rest } rest rfl hseen) (by omega)

/-- A null is read back. -/
theorem readsBack_null (vm : DeserializerVm τ) (n : Nat) (seen : List (List UInt8)) :
    ReadsBack vm n [.null] .null seen seen := by
  refine ⟨by decide, ?_⟩
  rintro (_ | fuel) top d rest hfuel htop hd rfl
  · exact absurd hfuel (by decide)
  · have h : d.input = (tpNull ||| 1) :: rest := hd
    have hslots : useSlots (top + 1) = .ok () := useSlots_of_le (by omega)
    rw [deserializeObject, readWord_byte h]
    show (useSlots (top + 1) >>= fun _ => _) = _
    rw [hslots]
    rfl

/-- A boolean is read back. -/
theorem readsBack_bool (vm : DeserializerVm τ) (n : Nat) (b : Bool) (seen : List (List UInt8)) :
    ReadsBack vm n [.bool b] (.bool b) seen seen := by
  refine ⟨by cases b <;> decide, ?_⟩
  rintro (_ | fuel) top d rest hfuel htop hd rfl
  · exact absurd hfuel (by cases b <;> decide)
  · have hslots : useSlots (top + 1) = .ok () := useSlots_of_le (by omega)
    cases b with
    | false =>
      have h : d.input = (tpBool ||| 0) :: rest := hd
      rw [deserializeObject, readWord_byte h]
      show (useSlots (top + 1) >>= fun _ => _) = _
      rw [hslots]
      rfl
    | true =>
      have h : d.input = (tpBool ||| 1) :: rest := hd
      rw [deserializeObject, readWord_byte h]
      show (useSlots (top + 1) >>= fun _ => _) = _
      rw [hslots]
      rfl

/-- An integer is read back. -/
theorem readsBack_integer (vm : DeserializerVm τ) (n : Nat) (i : BitVec 64)
    (seen : List (List UInt8)) : ReadsBack vm n [.integer i] (.integer i) seen seen := by
  obtain ⟨t, body, henc, ht, hread⟩ := encodeInteger_read (τ := τ) i
  refine .scalar henc ?_
  rintro d rest hd rfl
  exact .inl ⟨ht, hread d rest hd⟩

/-- A float is read back, or as the float that has a byte of its own. -/
theorem readsBack_float (vm : DeserializerVm τ) (n : Nat) (w : UInt32) (seen : List (List UInt8)) :
    ReadsBack vm n [.float w] (.float (restoreFloat w)) seen seen := by
  obtain ⟨t, body, henc, ht, hread⟩ := encodeFloat_read (τ := τ) w
  refine .scalar henc ?_
  rintro d rest hd rfl
  exact .inr (.inl ⟨ht, hread d rest hd⟩)

theorem readsBack_emptyString (vm : DeserializerVm τ) (n : Nat) (seen : List (List UInt8)) :
    ReadsBack vm n [.emptyString] (.string []) seen seen := by
  have henc : Token.emptyString.encode = tpString :: [] := rfl
  refine .scalar henc ?_
  rintro d rest hd rfl
  obtain rfl : d.input = rest := hd
  exact .inr (.inr ⟨by decide, rfl⟩)

/-- A new string is read back and known from then on. -/
theorem readsBack_newString (vm : DeserializerVm τ) (n addr : Nat) {s : List UInt8}
    (hs : s.length < deserMaxObjectSize) (seen : List (List UInt8)) :
    ReadsBack vm n [.newString addr s] (.string s) seen (seen ++ [s]) := by
  obtain ⟨t, body, henc, ht, hread⟩ := encodeNewString_read (τ := τ) hs
  refine .scalar henc ?_
  rintro d rest hd rfl
  exact .inr (.inr ⟨ht, hread d rest hd⟩)

/-- A reference is read back as the string of its index. -/
theorem readsBack_backRef (vm : DeserializerVm τ) (n addr : Nat) (index : UInt32)
    {s s' : List UInt8} {seen : List (List UInt8)} (hs : seen[index.toNat]? = some s') :
    ReadsBack vm n [.backRef addr index s] (.string s') seen seen := by
  obtain ⟨t, body, henc, ht, hread⟩ := encodeBackRef_read (τ := τ) index
  refine .scalar henc ?_
  rintro d rest hd rfl
  exact .inr (.inr ⟨ht, hread d rest s' hd hs⟩)

/-! ## Several records -/

/-- The reader makes of `toks` the elements `vs`, one after the other. -/
def ReadsAll (vm : DeserializerVm τ) (n : Nat) (toks : List Token) (vs : List Value)
    (seen seen' : List (List UInt8)) : Prop :=
  ∀ (fuel top : Nat) (d : Deserializer τ) (rest : List UInt8),
    (encodeAll toks).length ≤ fuel → top + 2 * n + 1 ≤ stackGrowThreshold →
    d.input = encodeAll toks ++ rest → d.stringList = seen →
      deserializeAll (deserializeObject vm fuel top) vs.length d =
        .ok (vs, { d with input := rest, stringList := seen' })

/-- The reader makes of `toks` the entries `es`, and stores them one after the other. -/
def ReadsEntries (vm : DeserializerVm τ) (n : Nat) (toks : List Token) (es : List (Value × Value))
    (seen seen' : List (List UInt8)) : Prop :=
  ∀ (fuel top : Nat) (d : Deserializer τ) (rest : List UInt8) (acc : List (Value × Value)),
    (encodeAll toks).length ≤ fuel → top + 2 * n + 2 ≤ stackGrowThreshold →
    d.input = encodeAll toks ++ rest → d.stringList = seen →
      deserializeEntries (deserializeObject vm fuel top) (deserializeObject vm fuel (top + 1))
        es.length acc d =
          .ok (es.foldl (fun acc e => rawset acc e.1 e.2) acc,
            { d with input := rest, stringList := seen' })

section Several

variable {vm : DeserializerVm τ} {n : Nat} {toks toks' toks₂ : List Token}
  {seen seen' seen₂ seen₃ : List (List UInt8)}

theorem ReadsAll.nil : ReadsAll vm n [] [] seen seen := by
  rintro fuel top d rest - - hd rfl
  obtain rfl : d.input = rest := hd
  rfl

/-- A value and then the others. -/
theorem ReadsAll.cons {v : Value} {vs : List Value} (hv : ReadsBack vm n toks v seen seen')
    (hvs : ReadsAll vm n toks' vs seen' seen₂) :
    ReadsAll vm n (toks ++ toks') (v :: vs) seen seen₂ := by
  intro fuel top d rest hfuel htop hd hseen
  rw [encodeAll_append, List.length_append] at hfuel
  rw [encodeAll_append, List.append_assoc] at hd
  have hread := hv.2 fuel top d _ (by omega) htop hd hseen
  have hrest := hvs fuel top { d with input := encodeAll toks' ++ rest, stringList := seen' } rest
    (by omega) htop rfl rfl
  rw [List.length_cons, deserializeAll, hread]
  show (deserializeAll _ _ _ >>= _) = _
  rw [hrest]
  rfl

theorem ReadsEntries.nil : ReadsEntries vm n [] [] seen seen := by
  rintro fuel top d rest acc - - hd rfl
  obtain rfl : d.input = rest := hd
  rfl

/-- A key, its value, and then the others. -/
theorem ReadsEntries.cons {key val : Value} {es : List (Value × Value)}
    (hkey : ReadsBack vm n toks key seen seen') (hval : ReadsBack vm n toks' val seen' seen₂)
    (hes : ReadsEntries vm n toks₂ es seen₂ seen₃) :
    ReadsEntries vm n (toks ++ (toks' ++ toks₂)) ((key, val) :: es) seen seen₃ := by
  intro fuel top d rest acc hfuel htop hd hseen
  rw [encodeAll_append, encodeAll_append, List.length_append, List.length_append] at hfuel
  rw [encodeAll_append, encodeAll_append, List.append_assoc, List.append_assoc] at hd
  have hread := hkey.2 fuel top d _ (by omega) (by omega) hd hseen
  have hread' := hval.2 fuel (top + 1)
    { d with input := encodeAll toks' ++ (encodeAll toks₂ ++ rest), stringList := seen' } _
    (by omega) (by omega) rfl rfl
  have hrest := hes fuel top { d with input := encodeAll toks₂ ++ rest, stringList := seen₂ } rest
    (rawset acc key val) (by omega) htop rfl rfl
  rw [List.length_cons, deserializeEntries, hread]
  show (deserializeObject _ _ _ _ >>= _) = _
  rw [hread']
  exact hrest

/-- An array is read back when its values are. -/
theorem ReadsBack.array {vs : List Value} (hsize : vs.length < deserMaxObjectSize)
    (hvs : ReadsAll vm n toks vs seen seen') :
    ReadsBack vm (n + 1) (.array vs.length :: toks) (.array vs) seen seen' := by
  obtain ⟨t, body, henc, ht, hread⟩ := encodeSize_read (τ := τ) (.inl rfl) hsize
    "Invalid array type during deserialization" "Array too large during deserialization"
  have hbytes : encodeAll (.array vs.length :: toks) = t :: (body ++ encodeAll toks) := by
    rw [← List.cons_append, ← henc]
    exact List.flatMap_cons
  unfold ReadsBack
  rw [hbytes]
  refine ⟨Nat.zero_lt_succ _, ?_⟩
  intro fuel top d rest hfuel htop hd hseen
  rw [List.length_cons, List.length_append] at hfuel
  obtain ⟨fuel, rfl⟩ := Nat.exists_eq_succ_of_ne_zero (show fuel ≠ 0 by omega)
  rw [List.cons_append, List.append_assoc] at hd
  have hhead := hread { d with input := body ++ (encodeAll toks ++ rest) } _ rfl
  have helems := hvs fuel (top + 2) { d with input := encodeAll toks ++ rest } rest (by omega)
    (by omega) rfl hseen
  have hslots : useSlots (top + 1) = .ok () := useSlots_of_le (by omega)
  have hslots' : useSlots (top + 2) = .ok () := useSlots_of_le (by omega)
  have ht' : t.toNat / 16 = 5 := ht
  simp only [deserializeObject, readWord_byte hd, ht', hhead, hslots, hslots', helems, bind,
    Except.bind, pure, Except.pure]
  split <;> rfl

/-- A table is read back when its entries are. -/
theorem ReadsBack.table {es : List (Value × Value)} (hsize : es.length < deserMaxObjectSize)
    (hes : ReadsEntries vm n toks es seen seen') :
    ReadsBack vm (n + 1) (.table es.length :: toks)
      (.table (es.foldl (fun acc e => rawset acc e.1 e.2) [])) seen seen' := by
  obtain ⟨t, body, henc, ht, hread⟩ := encodeSize_read (τ := τ) (.inr rfl) hsize
    "Invalid table type during deserialization" "Table too large during deserialization"
  have hbytes : encodeAll (.table es.length :: toks) = t :: (body ++ encodeAll toks) := by
    rw [← List.cons_append, ← henc]
    exact List.flatMap_cons
  unfold ReadsBack
  rw [hbytes]
  refine ⟨Nat.zero_lt_succ _, ?_⟩
  intro fuel top d rest hfuel htop hd hseen
  rw [List.length_cons, List.length_append] at hfuel
  obtain ⟨fuel, rfl⟩ := Nat.exists_eq_succ_of_ne_zero (show fuel ≠ 0 by omega)
  rw [List.cons_append, List.append_assoc] at hd
  have hhead := hread { d with input := body ++ (encodeAll toks ++ rest) } _ rfl
  have hentries := hes fuel (top + 1) { d with input := encodeAll toks ++ rest } rest [] (by omega)
    (by omega) rfl hseen
  have hslots : useSlots (top + 1) = .ok () := useSlots_of_le (by omega)
  have ht' : t.toNat / 16 = 6 := ht
  simp only [deserializeObject, readWord_byte hd, ht', hhead, hslots, hentries, bind, Except.bind,
    pure, Except.pure]

end Several

/-! ## The writer -/

/-- A visit that starts in `s` ends without an error, leaves the machine alone and writes records
that satisfy `P`. -/
def Visited (vm : SerializerVm σ) (U : Set (List UInt8)) (s : Serializer σ)
    (seen' : List (List UInt8)) (P : List Token → Prop) (visit : Visit σ) : Prop :=
  ∃ s' toks, visit = (s', none) ∧ s'.tokens = s.tokens ++ toks ∧ s'.vm = s.vm ∧
    Linked (vm.address s.vm) U s' seen' ∧ P toks

section Writer

variable {vm : SerializerVm σ} {dvm : DeserializerVm τ} {U : Set (List UInt8)} {s : Serializer σ}
  {seen : List (List UInt8)}

theorem Visited.emit (h : Linked (vm.address s.vm) U s seen) {P : List Token → Prop} {t : Token}
    (ht : P [t]) : Visited vm U s seen P (s.emit t, none) :=
  ⟨s.emit t, [t], rfl, rfl, rfl, h.emit t, ht⟩

/-- The visit of a string writes what is read back. -/
theorem visited_string (haddr : Set.InjOn (vm.address s.vm) U)
    (h : Linked (vm.address s.vm) U s seen) {str : List UInt8}
    (hU : ∀ x ∈ stringsOf (Value.string str).nodes, x ∈ U)
    (hsize : str.length < deserMaxObjectSize) (n : Nat) :
    Visited vm U s ((Value.string str).seenAfter seen)
      (fun toks => ReadsBack dvm n toks ((Value.string str).restore seen) seen
        ((Value.string str).seenAfter seen)) (serializeString vm str s, none) := by
  rw [Value.restore]
  cases str with
  | nil => exact .emit h (readsBack_emptyString dvm n seen)
  | cons c cs =>
    have hmem : c :: cs ∈ U := hU _ List.mem_cons_self
    have hafter : (Value.string (c :: cs)).seenAfter seen = addString seen (c :: cs) := rfl
    rw [serializeString, if_neg (List.cons_ne_nil c cs), h.index _ hmem, hafter, restoreString,
      addString]
    by_cases hseen : c :: cs ∈ seen
    · rw [numberOf_of_mem hseen, if_pos hseen, if_pos ⟨List.cons_ne_nil c cs, hseen⟩]
      have hlt : seen.idxOf (c :: cs) % 2 ^ 32 < seen.length :=
        Nat.lt_of_le_of_lt (Nat.mod_le _ _) (List.idxOf_lt_length_iff.2 hseen)
      refine .emit h (readsBack_backRef dvm n _ _ ?_)
      rw [UInt32.toNat_ofNat']
      show seen[seen.idxOf (c :: cs) % 2 ^ 32]? =
        some ((seen[seen.idxOf (c :: cs) % 2 ^ 32]?).getD [])
      rw [List.getElem?_eq_getElem hlt]
      rfl
    · rw [numberOf_eq_none.2 hseen, if_neg hseen, if_neg fun hpos => hseen hpos.2]
      exact ⟨_, _, rfl, rfl, rfl, h.newString haddr hmem hseen _,
        readsBack_newString dvm n _ hsize seen⟩

/-- Every visit of `v` while the machine is in the state `st`. -/
def Visits (vm : SerializerVm σ) (dvm : DeserializerVm τ) (U : Set (List UInt8)) (st : σ)
    (n : Nat) (v : Value) : Prop :=
  ∀ (s : Serializer σ) (seen : List (List UInt8)), s.vm = st → Linked (vm.address st) U s seen →
    Visited vm U s (v.seenAfter seen)
      (fun toks => ReadsBack dvm n toks (v.restore seen) seen (v.seenAfter seen))
      (serializeObject vm n v s)

/-- The visit of an array writes what is read back, value by value. -/
theorem visited_all {n : Nat} {vs : List Value} (hvs : ∀ v ∈ vs, Visits vm dvm U s.vm n v)
    (h : Linked (vm.address s.vm) U s seen) :
    Visited vm U s (addStrings seen (stringsOf (nodesAll vs)))
      (fun toks => ReadsAll dvm n toks (restoreAll vs seen) seen
        (addStrings seen (stringsOf (nodesAll vs)))) (serializeAll (serializeObject vm n) vs s) := by
  induction vs generalizing s seen with
  | nil => exact ⟨s, [], rfl, (List.append_nil _).symm, rfl, h, .nil⟩
  | cons v vs ih =>
    obtain ⟨s', toks, hvisit, htoks, hvm, hlink, hread⟩ := hvs v List.mem_cons_self s seen rfl h
    rw [← hvm] at hlink hvs
    obtain ⟨s₂, toks', hvisit', htoks', hvm', hlink', hread'⟩ :=
      ih (fun w hw => hvs w (List.mem_cons_of_mem v hw)) hlink
    rw [serializeAll, hvisit, nodesAll, stringsOf_append, addStrings_append]
    refine ⟨s₂, toks ++ toks', hvisit', ?_, hvm'.trans hvm, hvm ▸ hlink', .cons hread hread'⟩
    rw [htoks', htoks, List.append_assoc]

/-- The visit of a table writes what is read back, entry by entry. -/
theorem visited_entries {n : Nat} {es : List (Value × Value)}
    (hes : ∀ v ∈ flatEntries es, Visits vm dvm U s.vm n v) (h : Linked (vm.address s.vm) U s seen) :
    Visited vm U s (addStrings seen (stringsOf (nodesEntries es)))
      (fun toks => ReadsEntries dvm n toks (restoreEntries es seen) seen
        (addStrings seen (stringsOf (nodesEntries es))))
      (serializeAll (serializeObject vm n) (flatEntries es) s) := by
  induction es generalizing s seen with
  | nil => exact ⟨s, [], rfl, (List.append_nil _).symm, rfl, h, .nil⟩
  | cons e es ih =>
    obtain ⟨key, val⟩ := e
    have hflat : flatEntries ((key, val) :: es) = key :: val :: flatEntries es := rfl
    rw [hflat] at hes ⊢
    obtain ⟨s', toks, hvisit, htoks, hvm, hlink, hread⟩ := hes key List.mem_cons_self s seen rfl h
    obtain ⟨s₂, toks', hvisit', htoks', hvm', hlink', hread'⟩ :=
      hes val (List.mem_cons_of_mem _ List.mem_cons_self) s' _ hvm hlink
    rw [hvm] at hvm' hlink'
    rw [← hvm'] at hlink' hes
    obtain ⟨s₃, toks₂, hvisit₂, htoks₂, hvm₂, hlink₂, hread₂⟩ := ih (fun w hw =>
      hes w (List.mem_cons_of_mem _ (List.mem_cons_of_mem _ hw))) hlink'
    rw [serializeAll, hvisit, nodesEntries, stringsOf_append, stringsOf_append, addStrings_append,
      addStrings_append]
    refine ⟨s₃, toks ++ (toks' ++ toks₂), ?_, ?_, hvm₂.trans hvm', hvm' ▸ hlink₂,
      .cons hread hread' hread₂⟩
    · show (serializeAll _ _ s') = _
      rw [serializeAll, hvisit']
      exact hvisit₂
    · rw [htoks₂, htoks', htoks, List.append_assoc, List.append_assoc]

theorem mem_flatEntries {es : List (Value × Value)} {v : Value} :
    v ∈ flatEntries es ↔ ∃ e ∈ es, v = e.1 ∨ v = e.2 := by
  simp [flatEntries, List.mem_flatMap]

variable (dvm) in
/-- **One visit** of the writer, and what the reader makes of its records. -/
theorem visits_object {st : σ} (haddr : Set.InjOn (vm.address st) U) (n : Nat) {v : Value}
    (hn : WithinDepth n v) (hv : ∀ w ∈ v.nodes, w.Serializable)
    (hU : ∀ x ∈ stringsOf v.nodes, x ∈ U) : Visits vm dvm U st n v := by
  -- on the depth that is left: the parts of an array or of a table have one less
  induction n generalizing v with
  | zero =>
    rintro s seen rfl h
    cases v with
    | null => exact .emit h (readsBack_null dvm 0 seen)
    | bool b => exact .emit h (readsBack_bool dvm 0 b seen)
    | integer i => exact .emit h (readsBack_integer dvm 0 i seen)
    | float w => exact .emit h (readsBack_float dvm 0 w seen)
    | string str => exact visited_string haddr h hU (hv _ List.mem_cons_self) 0
    | array es => exact hn.elim
    | table es => exact hn.elim
    | sqinstance addr => exact (hv _ List.mem_cons_self).elim
    | unsupported => exact (hv _ List.mem_cons_self).elim
  | succ n ih =>
    rintro s seen rfl h
    cases v with
    | null => exact .emit h (readsBack_null dvm _ seen)
    | bool b => exact .emit h (readsBack_bool dvm _ b seen)
    | integer i => exact .emit h (readsBack_integer dvm _ i seen)
    | float w => exact .emit h (readsBack_float dvm _ w seen)
    | string str => exact visited_string haddr h hU (hv _ List.mem_cons_self) _
    | array es =>
      -- the elements lie inside the value, so they are serializable and their strings are known
      have helems : ∀ v ∈ es, Visits vm dvm U s.vm n v := by
        intro v he
        have hsub : ∀ w ∈ v.nodes, w ∈ (Value.array es).nodes := fun w hw =>
          List.mem_cons_of_mem _ (mem_nodesAll.2 ⟨v, he, hw⟩)
        exact ih (hn v he) (fun w hw => hv w (hsub w hw)) fun x hx => hU x (stringsOf_mono hsub hx)
      obtain ⟨s', toks, hvisit, htoks, hvm, hlink', hread⟩ :=
        visited_all (s := s.emit (.array es.length)) helems (h.emit _)
      refine ⟨s', .array es.length :: toks, hvisit, ?_, hvm, hlink', ?_⟩
      · rw [htoks]
        exact List.append_assoc _ _ _
      · have hsize := hv _ List.mem_cons_self
        have hlen := length_restoreAll es seen
        rw [Value.restore, ← hlen]
        exact .array (hlen ▸ hsize) hread
    | table es =>
      -- a table is visited as the list of its keys and values
      have hentries : ∀ v ∈ flatEntries es, Visits vm dvm U s.vm n v := by
        intro v he
        obtain ⟨e, he, heq⟩ := mem_flatEntries.1 he
        have hsub : ∀ w ∈ v.nodes, w ∈ (Value.table es).nodes := fun w hw =>
          List.mem_cons_of_mem _ (mem_nodesEntries.2 ⟨e, he, heq.imp (fun h : v = e.1 => h ▸ hw) fun h : v = e.2 => h ▸ hw⟩)
        have hdepth : WithinDepth n v := heq.elim (fun heq => heq ▸ (hn e he).1)
          fun heq => heq ▸ (hn e he).2
        exact ih hdepth (fun w hw => hv w (hsub w hw)) fun x hx => hU x (stringsOf_mono hsub hx)
      obtain ⟨s', toks, hvisit, htoks, hvm, hlink', hread⟩ :=
        visited_entries (s := s.emit (.table es.length)) hentries (h.emit _)
      refine ⟨s', .table es.length :: toks, hvisit, ?_, hvm, hlink', ?_⟩
      · rw [htoks]
        exact List.append_assoc _ _ _
      · have hsize := (hv _ List.mem_cons_self).1
        have hlen := length_restoreEntries es seen
        rw [Value.restore, ← hlen]
        exact .table (hlen ▸ hsize) hread
    | sqinstance addr => exact (hv _ List.mem_cons_self).elim
    | unsupported => exact (hv _ List.mem_cons_self).elim

end Writer

/-! ## Whole streams -/

/-- Before the first token no string is known. -/
theorem linked_initial (address : List UInt8 → Nat) (U : Set (List UInt8)) (st : σ) :
    Linked address U (Serializer.initial st) [] :=
  ⟨rfl, fun _ _ => (numberOf_nil _).symm⟩

/-- **The round trip**: a tree is written, and what is read back is the restored tree, off exactly
the bytes that were written. -/
theorem deserialize_serialize (vm : SerializerVm σ) (dvm : DeserializerVm τ) (st : σ) (dst : τ)
    {v : Value} (hn : WithinDepth maxDepth v) (hv : ∀ w ∈ v.nodes, w.Serializable)
    (haddr : Set.InjOn (vm.address st) {x | x ∈ stringsOf v.nodes}) :
    ∃ bytes, serialize vm st v = .ok bytes ∧ ∀ rest, ∃ d,
      deserialize dvm dst (bytes ++ rest) = .ok (v.restore [], d) ∧ d.input = rest := by
  obtain ⟨s, toks, hvisit, htoks, -, -, hpos, hread⟩ :=
    visits_object dvm haddr maxDepth hn hv (fun x hx => hx) (Serializer.initial st) [] rfl
      (linked_initial _ _ st)
  refine ⟨startMarker :: encodeAll s.tokens ++ [endMarker], ?_, fun rest => ?_⟩
  · rw [serialize, hvisit]
  · have htoks' : s.tokens = toks := htoks
    rw [htoks']
    refine ⟨{ Deserializer.initial dst rest with stringList := v.seenAfter [] }, ?_, rfl⟩
    have hstart : (Deserializer.initial dst
        (startMarker :: encodeAll toks ++ [endMarker] ++ rest)).input =
          startMarker :: (encodeAll toks ++ (endMarker :: rest)) := by
      simp [Deserializer.initial]
    have hlen : (encodeAll toks).length ≤
        (startMarker :: encodeAll toks ++ [endMarker] ++ rest).length := by
      simp only [List.length_append, List.length_cons]
      omega
    have hobject := hread _ 0
      { Deserializer.initial dst (startMarker :: encodeAll toks ++ [endMarker] ++ rest) with
        input := encodeAll toks ++ (endMarker :: rest) } (endMarker :: rest)
      hlen (by decide) rfl rfl
    rw [deserialize, deserializeWithin, readWord_byte hstart]
    show (deserializeObject _ _ _ _ >>= _) = _
    rw [hobject]
    simp only [bind, Except.bind]
    rw [readWord_byte rfl]
    rfl

/-- `deserialize` after `serialize` succeeds, takes exactly the bytes that were written and returns
a value that is structurally equal. -/
def RoundTrips (vm : SerializerVm σ) (dvm : DeserializerVm τ) (st : σ) (dst : τ) (v : Value) : Prop :=
  ∃ bytes, serialize vm st v = .ok bytes ∧ ∀ rest, ∃ v' d,
    deserialize dvm dst (bytes ++ rest) = .ok (v', d) ∧ d.input = rest ∧ Same v v'

/-- A value makes the round trip if and only if it comes back the same. -/
theorem roundTrips_iff_same (vm : SerializerVm σ) (dvm : DeserializerVm τ) (st : σ) (dst : τ)
    {v : Value} (hn : WithinDepth maxDepth v) (hv : ∀ w ∈ v.nodes, w.Serializable)
    (haddr : Set.InjOn (vm.address st) {x | x ∈ stringsOf v.nodes}) :
    RoundTrips vm dvm st dst v ↔ Same v (v.restore []) := by
  obtain ⟨bytes, hwrite, hread⟩ := deserialize_serialize vm dvm st dst hn hv haddr
  constructor
  · rintro ⟨bytes', hwrite', htrip⟩
    obtain rfl : bytes = bytes' := Except.ok.inj (hwrite.symm.trans hwrite')
    obtain ⟨v', d', hread', -, hsame⟩ := htrip []
    obtain ⟨d, hread, -⟩ := hread []
    cases hread.symm.trans hread'
    exact hsame
  · intro hsame
    refine ⟨bytes, hwrite, fun rest => ?_⟩
    obtain ⟨d, hread, hrest⟩ := hread rest
    exact ⟨_, d, hread, hrest, hsame⟩

/-- **Round trips.** A tree of null, booleans, integers, floats, strings, arrays and tables within
the limits comes back as it was if and only if its table keys are kept and every string that occurs
again is one of the first `2 ^ 32`. Strings are interned, so different strings of the tree have
different addresses. -/
theorem roundTrips_iff (vm : SerializerVm σ) (dvm : DeserializerVm τ) (st : σ) (dst : τ) {v : Value}
    (hn : WithinDepth maxDepth v) (hv : ∀ w ∈ v.nodes, w.Serializable)
    (haddr : Set.InjOn (vm.address st) {x | x ∈ stringsOf v.nodes}) :
    RoundTrips vm dvm st dst v ↔ KeysKept v ∧ IndicesFit [] (stringsOf v.nodes) := by
  rw [roundTrips_iff_same vm dvm st dst hn hv haddr]
  exact same_restore_iff hn hv List.nodup_nil

/-! ## Without classes -/

/-- A machine without available classes. -/
def plainSerializer : SerializerVm Unit where
  address _ s := ofLE (s ++ [1])
  classNames _ := .ok []
  classOf _ _ := 0
  getstate _ _ := none
  callGetstate st _ _ := (st, none)
  popState st _ := st

/-- A machine without available classes. -/
def plainDeserializer : DeserializerVm Unit where
  available _ := .null
  lookup _ _ := none
  constructorOf _ _ := none
  setstate _ _ := none
  instantiate st _ := (st, none)
  callSetstate st _ _ _ _ := (st, false)

/-- `["a", "a", "", {b = null}]` -/
def sharedStrings : Value :=
  .array [.string [97], .string [97], .string [], .table [(.string [98], .null)]]

/-- An array with one string twice. -/
theorem sharedStrings_roundTrips :
    RoundTrips plainSerializer plainDeserializer () () sharedStrings := by
  have hstrings : stringsOf sharedStrings.nodes = [[97], [97], [98]] := by decide
  refine (roundTrips_iff _ _ _ _ ?_ ?_ ?_).2 ⟨?_, ?_⟩
  · simp [sharedStrings, WithinDepth, maxDepth]
  · simp [sharedStrings, Value.nodes, nodesAll, nodesEntries, Value.Serializable, DistinctKeys,
      deserMaxObjectSize]
  · rw [hstrings]
    intro x hx y hy
    simp only [Set.mem_ofPred_eq, List.mem_cons, List.not_mem_nil, or_false] at hx hy
    rcases hx with rfl | rfl | rfl <;> rcases hy with rfl | rfl | rfl <;> decide
  · simp [KeysKept, sharedStrings, Value.nodes, nodesAll, nodesEntries, KeyKept]
  · rw [hstrings]
    simp [IndicesFit, addString]

/-- `{[-0.0] = 1, [0.0] = 2}` -/
def twoZeros : Value := .table [(.float 0x80000000, .integer 1), (.float 0, .integer 2)]

/-- A table with both zeros as keys does not come back. -/
theorem twoZeros_not_roundTrips : (WithinDepth maxDepth twoZeros ∧
    (∀ w ∈ twoZeros.nodes, w.Serializable) ∧ stringsOf twoZeros.nodes = []) ∧
      ¬ RoundTrips plainSerializer plainDeserializer () () twoZeros := by
  have hdepth : WithinDepth maxDepth twoZeros := by simp [twoZeros, WithinDepth, maxDepth]
  have hnodes : ∀ w ∈ twoZeros.nodes, w.Serializable := by
    simp [twoZeros, Value.nodes, nodesEntries, Value.Serializable, DistinctKeys, sameKey,
      deserMaxObjectSize]
  have hstrings : stringsOf twoZeros.nodes = [] := rfl
  have haddr : Set.InjOn (plainSerializer.address ()) {x | x ∈ stringsOf twoZeros.nodes} := by
    rw [hstrings]
    exact fun x hx => absurd hx List.not_mem_nil
  refine ⟨⟨hdepth, hnodes, hstrings⟩, ?_⟩
  rw [roundTrips_iff_same _ _ _ _ hdepth hnodes haddr]
  -- Both keys come back as `0.0`, and one entry is left.
  have hrestore : twoZeros.restore [] = .table [(.float 0, .integer 2)] := rfl
  rw [hrestore]
  rintro ⟨⟩
  contradiction

end Quirrel.Serialization
