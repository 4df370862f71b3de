import Mathlib.Algebra.Order.Floor.Div
import WordMachine.Proofs.LabelIds
import WordMachine.Proofs.Remainders

/-!
# Label ids as checksums of prefixes

The checksum of a name is never started anew: each reading of it covers the name from its beginning
to the end of a group of four characters, or of the name.  So the id of a name is the exclusive or
of the checksums of some of its prefixes, each of them the complement of a remainder
(`id_eq_xor_of_prefixes`).  Groups are counted in characters, and the checksum in the bytes of their
encodings.
-/

namespace WordMachine.Label

/-- The exclusive or of some words. -/
def xorOf (readings : List UInt32) : UInt32 := readings.foldl (· ^^^ ·) 0

theorem foldl_xor (acc : UInt32) (readings : List UInt32) :
    readings.foldl (· ^^^ ·) acc = acc ^^^ xorOf readings := by
  induction readings generalizing acc with
  | nil => exact UInt32.xor_zero.symm
  | cons r readings ih =>
      rw [xorOf, List.foldl_cons, List.foldl_cons, ih, ih (0 ^^^ r), UInt32.zero_xor,
        UInt32.xor_assoc]

theorem xorOf_cons (r : UInt32) (readings : List UInt32) :
    xorOf (r :: readings) = r ^^^ xorOf readings := by
  rw [xorOf, List.foldl_cons, foldl_xor, UInt32.zero_xor]

theorem bytesOf_append (cs ds : List Char) : bytesOf (cs ++ ds) = bytesOf cs ++ bytesOf ds :=
  List.flatMap_append

/-- The first group taken away, there is one group less. -/
theorem ceilDiv_length_cons (c : Char) (cs : List Char) :
    (c :: cs).length ⌈/⌉ groupSize = (cs.drop (groupSize - 1)).length ⌈/⌉ groupSize + 1 := by
  have hsize : groupSize = 4 := rfl
  rw [Nat.ceilDiv_eq_add_pred_div, Nat.ceilDiv_eq_add_pred_div, List.length_drop, List.length_cons,
    hsize]
  omega

/-- The state of the checksum after the first groups of some characters. -/
def stateAfter (state : UInt32) (cs : List Char) (groups : Nat) : UInt32 :=
  Crc32.feedAll state (bytesOf (cs.take (groupSize * groups)))

/-- The state after some groups is the one that the first of them leads to, fed the others. -/
theorem stateAfter_succ (state : UInt32) (c : Char) (cs : List Char) (k : Nat) :
    stateAfter state (c :: cs) (k + 1) =
      stateAfter (stateAfter state (c :: cs) 1) (cs.drop (groupSize - 1)) k := by
  have hsplit : (c :: cs).take (groupSize * (k + 1)) =
      (c :: cs).take groupSize ++ (cs.drop (groupSize - 1)).take (groupSize * k) := by
    rw [Nat.mul_succ, Nat.add_comm, List.take_add]
    rfl
  rw [stateAfter, stateAfter, stateAfter, Nat.mul_one, ← Crc32.feedAll_append, ← bytesOf_append,
    hsplit]

/-- The checksum is read after one group, after two groups and so on, up to the end. -/
theorem idBits_eq (state acc : UInt32) (cs : List Char) :
    idBits state acc cs =
      acc ^^^ xorOf ((List.range' 1 (cs.length ⌈/⌉ groupSize)).map fun k =>
        Crc32.finish (stateAfter state cs k)) := by
  induction state, acc, cs using idBits.induct with
  | case1 state acc =>
      rw [idBits]
      exact UInt32.xor_zero.symm
  | case2 state acc c cs group state' ih =>
      have hstate : state' = stateAfter state (c :: cs) 1 := rfl
      have hrest : ((List.range' 1 ((cs.drop (groupSize - 1)).length ⌈/⌉ groupSize)).map fun k =>
            Crc32.finish (stateAfter state' (cs.drop (groupSize - 1)) k)) =
          (List.range' 2 ((cs.drop (groupSize - 1)).length ⌈/⌉ groupSize)).map fun k =>
            Crc32.finish (stateAfter state (c :: cs) k) := by
        rw [List.range'_succ_left (s := 1), List.map_map]
        refine List.map_congr_left fun k _ => ?_
        exact congrArg Crc32.finish (hstate ▸ (stateAfter_succ state c cs k).symm)
      calc idBits state acc (c :: cs)
          = idBits state' (acc ^^^ Crc32.finish state') (cs.drop (groupSize - 1)) :=
            idBits_cons state acc c cs
        _ = acc ^^^ (Crc32.finish state' ^^^
              xorOf ((List.range' 2 ((cs.drop (groupSize - 1)).length ⌈/⌉ groupSize)).map fun k =>
                Crc32.finish (stateAfter state (c :: cs) k))) := by
            rw [ih, hrest, UInt32.xor_assoc]
        _ = _ := by
            rw [ceilDiv_length_cons, List.range'_succ, List.map_cons, xorOf_cons, hstate]

/-- The id of a name is the exclusive or of the checksums of its prefixes that end with a group of
characters, or with the name. -/
theorem id_eq_xor_of_prefixes (name : String) :
    Word.bits (id name) =
      xorOf ((List.range' 1 (name.length ⌈/⌉ groupSize)).map fun k =>
        Crc32.checksum (bytesOf (name.toList.take (min (groupSize * k) name.length)))) ∧
    id "" = 0 := by
  have hempty : id "" = 0 := by
    rw [id, String.toList_empty, idBits]
    rfl
  refine ⟨?_, hempty⟩
  have hreadings : ∀ k, Crc32.finish (stateAfter Crc32.initial name.toList k) =
      Crc32.checksum (bytesOf (name.toList.take (min (groupSize * k) name.length))) := by
    intro k
    rw [stateAfter, Crc32.finish_feedAll, ← String.length_toList, List.take_eq_take_min]
  calc Word.bits (id name)
      = idBits Crc32.initial 0 name.toList := Word.bits_ofBits _
    _ = _ := by
        rw [idBits_eq, UInt32.zero_xor, String.length_toList]
        exact congrArg xorOf (List.map_congr_left fun k _ => hreadings k)

example : id "main" = -1087845020 := by
  decide +kernel

end WordMachine.Label
