import EbpfJit.Lib.ByteMemory
import EbpfJit.Lib.Runs
import EbpfJit.Lib.Transition

/-!
# The packets in memory

The bare-metal runtime that runs a program on several packets finds them in a region of the
memory, one behind the other, each followed by a sequence of stop words. The scan for the end
of a packet goes from halfword to halfword, and gives up at the end of the region.

Nothing in the region says how long a packet is, so that its own halfwords can be taken for
stop words: the packets that are found are the ones that were put there if and only if none of
them contains a stop sequence, or ends with a stop word.

* `getNextPktEnd_iff`: what the scan finds;
* `loadPacketArr_iff`: when it finds the packets.
-/

namespace EbpfJit.Baremetal

open ByteMemory Runs Transition

/-- The stop word. -/
def stopSeq : BitVec 16 := 0xFFFF

/-- The length of a stop sequence. -/
def stopSeqNo : ℕ := 4

/-- The variables of the scan. -/
structure ScanState where
  curr : BitVec 64
  end_seq_cnt : ℕ

/-- What is done with a halfword, and the condition of the loop. Its result at the end of the
    region is a null pointer. -/
def pktEndStep (m : Mem 64) (region_end : BitVec 64) (s : ScanState) :
    Res ScanState (BitVec 64) :=
  if s.curr = region_end then .done 0
  else
    let end_seq_cnt := if load m s.curr 16 = stopSeq then s.end_seq_cnt + 1 else 0
    if end_seq_cnt < stopSeqNo then .cont ⟨s.curr + 2, end_seq_cnt⟩ else .done (s.curr + 2)

/-- The end of the packet at `region_start`, behind its stop sequence. -/
def getNextPktEnd (m : Mem 64) (region_start region_end : BitVec 64) (fuel : ℕ) :
    Option (BitVec 64) :=
  match iter (pktEndStep m region_end) fuel ⟨region_start, 0⟩ with
  | .cont _ => none
  | .done pkt_end => some pkt_end

/-- The context of a program that is run on a packet. -/
structure XdpMd where
  data : BitVec 32
  data_end : BitVec 32
  data_meta : BitVec 32
  ingress_ifindex : BitVec 32
  rx_queue_index : BitVec 32
  egress_ifindex : BitVec 32

/-- The contexts of `count` packets, from `curr_start` on. The next packet is where the context
    says that the last one ends, so that it is a pointer of 32 bits. -/
def loadPacketArr (m : Mem 64) (region_end : BitVec 64) (fuel : ℕ) :
    ℕ → BitVec 64 → Option (List XdpMd)
  | 0, _ => some []
  | count + 1, curr_start => do
    let pkt_end ← getNextPktEnd m curr_start region_end fuel
    let curr : XdpMd := ⟨curr_start.setWidth 32, pkt_end.setWidth 32, 0, 99, 0, 0⟩
    let packets ← loadPacketArr m region_end fuel count (curr.data_end.setWidth 64)
    some (curr :: packets)

/-! ## The scan -/

section

variable {m : Mem 64} {a : BitVec 64} {n c fuel : ℕ}

theorem pointer_succ (a : BitVec 64) (k : ℕ) :
    a + 2 + BitVec.ofNat 64 (2 * k) = a + BitVec.ofNat 64 (2 * (k + 1)) := by
  rw [BitVec.add_assoc, Nat.mul_succ, Nat.add_comm (2 * k), BitVec.ofNat_add]
  rfl

/-- The end of the region is not reached before its last halfword. -/
theorem ne_end (hn : 2 * (n + 1) < 2 ^ 64) : a ≠ a + BitVec.ofNat 64 (2 * (n + 1)) := by
  intro h
  have hnat := congrArg BitVec.toNat h
  rw [BitVec.toNat_add, BitVec.toNat_ofNat, Nat.mod_eq_of_lt hn] at hnat
  have ha := a.isLt
  omega

/-- One step of the scan is one element of the list of halfwords. -/
theorem iter_pktEndStep (hc : c < stopSeqNo) (hn : 2 * n < 2 ^ 64) (hfuel : n < fuel) :
    iter (pktEndStep m (a + BitVec.ofNat 64 (2 * n))) fuel ⟨a, c⟩ =
      .done ((scan stopSeq stopSeqNo c (loadAll m a 16 n)).elim 0
        fun k => a + BitVec.ofNat 64 (2 * k)) := by
  induction n generalizing a c fuel with
  | zero =>
    obtain ⟨fuel, rfl⟩ := Nat.exists_eq_add_one.2 hfuel
    exact iter_succ_of_done (if_pos (BitVec.add_zero a).symm)
  | succ n ih =>
    obtain ⟨fuel, rfl⟩ := Nat.exists_eq_add_one.2 (Nat.zero_lt_of_lt hfuel)
    have hcurr := ne_end (a := a) hn
    have hrest {c' : ℕ} (hc' : c' < stopSeqNo) :
        iter (pktEndStep m (a + BitVec.ofNat 64 (2 * (n + 1)))) fuel ⟨a + 2, c'⟩ =
          .done (((scan stopSeq stopSeqNo c' (loadAll m (a + 2) 16 n)).map (· + 1)).elim 0
            fun k => a + BitVec.ofNat 64 (2 * k)) := by
      rw [← pointer_succ a n, ih hc' (by omega) (by omega)]
      cases scan stopSeq stopSeqNo c' (loadAll m (a + 2) 16 n) with
      | none => rfl
      | some k => exact congrArg Res.done (pointer_succ a k)
    rw [show loadAll m a 16 (n + 1) = load m a 16 :: loadAll m (a + 2) 16 n from rfl, scan]
    by_cases hstop : load m a 16 = stopSeq
    · rw [if_pos hstop]
      by_cases hlt : c + 1 < stopSeqNo
      · rw [if_pos hlt, ← hrest hlt, iter_succ_of_cont]
        simp only [pktEndStep, if_neg hcurr, if_pos hstop, if_pos hlt]
      · rw [if_neg hlt, iter_succ_of_done]
        simp only [pktEndStep, if_neg hcurr, if_pos hstop, if_neg hlt]
        rfl
    · rw [if_neg hstop, ← hrest (by decide), iter_succ_of_cont]
      simp only [pktEndStep, if_neg hcurr, if_neg hstop]
      rfl

/-- The scan of a region of `n` halfwords. -/
theorem getNextPktEnd_eq (hn : 2 * n < 2 ^ 64) (hfuel : n < fuel) :
    getNextPktEnd m a (a + BitVec.ofNat 64 (2 * n)) fuel =
      some ((scan stopSeq stopSeqNo 0 (loadAll m a 16 n)).elim 0
        fun k => a + BitVec.ofNat 64 (2 * k)) := by
  rw [getNextPktEnd, iter_pktEndStep (by decide) hn hfuel]

end

/-- The end of a packet in the halfwords at `a`: behind the first stop sequence, or a null
    pointer. -/
inductive IsPktEnd (a : BitVec 64) (l : List (BitVec 16)) : BitVec 64 → Prop
  | found {k : ℕ} (h : FirstRunAt stopSeq stopSeqNo 0 l k) :
      IsPktEnd a l (a + BitVec.ofNat 64 (2 * k))
  | missing (h : ∀ j, ¬RunAt stopSeq stopSeqNo 0 l j) : IsPktEnd a l 0

/-- The scan of any region of halfwords ends, with what it should find. -/
theorem getNextPktEnd_iff {m : Mem 64} {a : BitVec 64} {n fuel : ℕ} (hn : 2 * n < 2 ^ 64)
    (hfuel : n < fuel) :
    (∃ r, getNextPktEnd m a (a + BitVec.ofNat 64 (2 * n)) fuel = some r) ∧
    ∀ r, getNextPktEnd m a (a + BitVec.ofNat 64 (2 * n)) fuel = some r ↔
      IsPktEnd a (loadAll m a 16 n) r := by
  rw [getNextPktEnd_eq hn hfuel]
  refine ⟨⟨_, rfl⟩, fun r => ?_⟩
  rw [Option.some.injEq]
  have hpos : 0 < stopSeqNo := by decide
  constructor
  · rintro rfl
    cases hs : scan stopSeq stopSeqNo 0 (loadAll m a 16 n) with
    | none => exact .missing ((scan_eq_none_iff hpos).1 hs)
    | some k => exact .found ((scan_eq_some_iff hpos).1 hs)
  · intro h
    cases h with
    | found h => rw [(scan_eq_some_iff hpos).2 h, Option.elim_some]
    | missing h => rw [(scan_eq_none_iff hpos).2 h, Option.elim_none]

/-- A region without a stop sequence. -/
theorem getNextPktEnd_noStop :
    getNextPktEnd (storeAll (fun _ => 0) 0x80001000 [1, stopSeq, 2]) 0x80001000
      (0x80001000 + BitVec.ofNat 64 (2 * 3)) 4 = some 0 := by
  refine ((getNextPktEnd_iff (by decide) (by decide)).2 0).2 (.missing ?_)
  have hregion : loadAll (storeAll (fun _ => 0) 0x80001000 [1, stopSeq, 2])
      (0x80001000 : BitVec 64) 16 3 = [1, stopSeq, 2] := loadAll_storeAll _ _ _ rfl (by decide)
  rw [hregion]
  exact (scan_eq_none_iff (by decide)).1 (by decide)

/-! ## The packets -/

/-- The packets in memory, one behind the other. -/
def layout (ps : List (List (BitVec 16))) : List (BitVec 16) :=
  ps.flatMap (· ++ List.replicate stopSeqNo stopSeq)

/-- The contexts of packets that start at `start`. -/
def contexts (start : BitVec 64) : List (List (BitVec 16)) → List XdpMd
  | [] => []
  | p :: ps =>
    let pkt_end := start + BitVec.ofNat 64 (2 * (p.length + stopSeqNo))
    ⟨start.setWidth 32, pkt_end.setWidth 32, 0, 99, 0, 0⟩ :: contexts pkt_end ps

section

variable {m : Mem 64} {start : BitVec 64} {k n fuel : ℕ}

/-- The pointers into the region do not wrap around. -/
theorem toNat_pointer (hn : start.toNat + 2 * n < 2 ^ 32) (hk : k ≤ n) :
    (start + BitVec.ofNat 64 (2 * k)).toNat = start.toNat + 2 * k := by
  rw [BitVec.toNat_add, BitVec.toNat_ofNat, Nat.mod_eq_of_lt (b := 2 ^ 64) (by omega),
    Nat.mod_eq_of_lt (by omega)]

/-- They are pointers of 32 bits. -/
theorem setWidth_pointer (hn : start.toNat + 2 * n < 2 ^ 32) (hk : k ≤ n) :
    ((start + BitVec.ofNat 64 (2 * k)).setWidth 32).setWidth 64 =
      start + BitVec.ofNat 64 (2 * k) := by
  refine BitVec.eq_of_toNat_eq ?_
  rw [BitVec.toNat_setWidth, BitVec.toNat_setWidth, toNat_pointer hn hk,
    Nat.mod_eq_of_lt (b := 2 ^ 32) (by omega), Nat.mod_eq_of_lt (by omega)]

/-- The end of the first packet, seen through the 32 bits of the context. -/
theorem setWidth_pktEnd_iff {l : List (BitVec 16)} (hn : start.toNat + 2 * l.length < 2 ^ 32)
    (hpos : 0 < k) (hk : k ≤ l.length) :
    ((scan stopSeq stopSeqNo 0 l).elim 0 fun j => start + BitVec.ofNat 64 (2 * j)).setWidth 32 =
        (start + BitVec.ofNat 64 (2 * k)).setWidth 32 ↔ scan stopSeq stopSeqNo 0 l = some k := by
  constructor
  · intro h
    have hwide := congrArg (BitVec.setWidth 64) h
    rw [setWidth_pointer hn hk] at hwide
    have hnat := congrArg BitVec.toNat hwide
    rw [toNat_pointer hn hk] at hnat
    cases hs : scan stopSeq stopSeqNo 0 l with
    | none =>
      rw [hs] at hnat
      have hzero : (((0 : BitVec 64).setWidth 32).setWidth 64).toNat = 0 := rfl
      exact absurd (hzero.symm.trans hnat) (by omega)
    | some j =>
      have hj := ((scan_eq_some_iff (by decide)).1 hs).run.le_length (by decide)
      rw [hs, Option.elim_some, setWidth_pointer hn hj, toNat_pointer hn hj] at hnat
      exact congrArg some (by omega)
  · intro h
    rw [h, Option.elim_some]

/-- The first packet ends at `k`, and the other ones are found behind it. -/
theorem loadPacketArr_succ_iff {count : ℕ} {packets : List XdpMd}
    (hn : start.toNat + 2 * n < 2 ^ 32) (hfuel : n < fuel) (hpos : 0 < k) (hk : k ≤ n) :
    loadPacketArr m (start + BitVec.ofNat 64 (2 * n)) fuel (count + 1) start =
        some (⟨start.setWidth 32, (start + BitVec.ofNat 64 (2 * k)).setWidth 32, 0, 99, 0, 0⟩ ::
          packets) ↔
      scan stopSeq stopSeqNo 0 (loadAll m start 16 n) = some k ∧
        loadPacketArr m (start + BitVec.ofNat 64 (2 * n)) fuel count
          (start + BitVec.ofNat 64 (2 * k)) = some packets := by
  have hlen : (loadAll m start 16 n).length = n := length_loadAll
  have hscan := setWidth_pktEnd_iff (l := loadAll m start 16 n) (by rwa [hlen]) hpos (by rwa [hlen])
  rw [loadPacketArr, getNextPktEnd_eq (by omega) hfuel, Option.bind_eq_bind, Option.bind_some]
  constructor
  · intro h
    obtain ⟨packets', hpackets, heq⟩ := Option.bind_eq_some_iff.1 h
    injection heq with heq
    injection heq with hhead htail
    injection hhead with _ hdata_end
    have hfirst := hscan.1 hdata_end
    dsimp only at hpackets
    rw [hfirst, Option.elim_some, setWidth_pointer hn hk, htail] at hpackets
    exact ⟨hfirst, hpackets⟩
  · rintro ⟨hfirst, hpackets⟩
    refine Option.bind_eq_some_iff.2 ⟨packets, ?_, ?_⟩
    · rw [hfirst, Option.elim_some, setWidth_pointer hn hk, hpackets]
    · rw [hfirst, Option.elim_some]

end

/-- The packets are found, whatever follows them, exactly if each is delimited by its stop
    sequence. -/
theorem loadPacketArr_iff {m : Mem 64} {start : BitVec 64} {n fuel : ℕ}
    {ps : List (List (BitVec 16))} {rest : List (BitVec 16)}
    (hregion : loadAll m start 16 n = layout ps ++ rest) (hn : start.toNat + 2 * n < 2 ^ 32)
    (hfuel : n < fuel) :
    loadPacketArr m (start + BitVec.ofNat 64 (2 * n)) fuel ps.length start =
        some (contexts start ps) ↔ ∀ p ∈ ps, Delimited stopSeq stopSeqNo p := by
  induction ps generalizing start n with
  | nil => exact iff_of_true rfl fun p hp => absurd hp List.not_mem_nil
  | cons p ps ih =>
    have hlayout : layout (p :: ps) ++ rest =
        (p ++ List.replicate stopSeqNo stopSeq) ++ (layout ps ++ rest) := by
      rw [layout, List.flatMap_cons, List.append_assoc]
      rfl
    have hfirst : (p ++ List.replicate stopSeqNo stopSeq).length = p.length + stopSeqNo := by
      rw [List.length_append, List.length_replicate]
    rw [hlayout] at hregion
    -- The region of the other packets.
    have hbehind := loadAll_of_append hregion
    obtain ⟨n', hn'⟩ : ∃ n', n' = (layout ps ++ rest).length := ⟨_, rfl⟩
    obtain rfl : n = p.length + stopSeqNo + n' := by
      rw [hn', ← hfirst, ← List.length_append, ← hregion, length_loadAll]
    rw [← hn', hfirst, Nat.mul_comm] at hbehind
    have hle : p.length + stopSeqNo ≤ p.length + stopSeqNo + n' := Nat.le_add_right _ _
    have hend : start + BitVec.ofNat 64 (2 * (p.length + stopSeqNo + n')) =
        start + BitVec.ofNat 64 (2 * (p.length + stopSeqNo)) + BitVec.ofNat 64 (2 * n') := by
      rw [Nat.mul_add, BitVec.ofNat_add, BitVec.add_assoc]
    have hothers := ih hbehind (by rw [toNat_pointer hn hle]; omega) (by omega : n' < fuel)
    have hdelimited : scan stopSeq stopSeqNo 0 (loadAll m start 16 (p.length + stopSeqNo + n')) =
        some (p.length + stopSeqNo) ↔ Delimited stopSeq stopSeqNo p := by
      rw [hregion]
      exact scan_delimited_iff (by decide)
    rw [List.forall_mem_cons, ← hdelimited, ← hothers, ← hend]
    exact loadPacketArr_succ_iff hn hfuel (Nat.lt_add_left _ (by decide)) hle

/-- Two packets and what follows them. -/
theorem loadPacketArr_twoPackets :
    loadPacketArr (storeAll (fun _ => 0) 0x80001000 (layout [[1, stopSeq, 2], []] ++ [7]))
        (0x80001000 + BitVec.ofNat 64 (2 * 12)) 13 2 0x80001000 =
      some (contexts 0x80001000 [[1, stopSeq, 2], []]) :=
  (loadPacketArr_iff (loadAll_storeAll _ _ _ rfl (by decide)) (by decide) (by decide)).2 (by decide)

end EbpfJit.Baremetal
