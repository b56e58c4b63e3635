import EbpfJit.Baremetal.Packets
import EbpfJit.Correctness

/-!
# Programs on packets

The `main` of the bare-metal runtime is linked with a compiled program. It finds the packets
in memory, makes an array of their contexts, and calls the program on each of them, one after
the other on the same memory.

* `runtimeMain`: what it does, for any program;
* `runtimeMain_of_interp`: with the code of a program, its results are those of the
  interpreter, called on the contexts of the packets that are in memory, for any size of the
  frames of its functions.
-/

namespace EbpfJit.Baremetal

open ByteMemory Ir Runs Transition

/-- The fields of a context, as they are in memory. -/
def XdpMd.fields (ctx : XdpMd) : List (BitVec 32) :=
  [ctx.data, ctx.data_end, ctx.data_meta, ctx.ingress_ifindex, ctx.rx_queue_index,
    ctx.egress_ifindex]

/-- A program, as a function of its two arguments and the memory. -/
abbrev BpfMain := BitVec 64 → BitVec 64 → Mem 64 → Option (BitVec 64 × Mem 64)

/-- The size of a context. -/
def xdpMdSize : BitVec 64 := 24

/-- The calls for the `count` contexts from `packet` on. The results are of type `int`. -/
def runPackets (bpf_main : BpfMain) : ℕ → BitVec 64 → Mem 64 →
    Option (List (BitVec 32) × Mem 64)
  | 0, _, mem => some ([], mem)
  | count + 1, packet, mem => do
    let (ret, mem) ← bpf_main packet xdpMdSize mem
    let (rets, mem) ← runPackets bpf_main count (packet + xdpMdSize) mem
    some (ret.setWidth 32 :: rets, mem)

/-- The function `main`, with its array of contexts at `packet`, which is no part of the
    region. -/
def runtimeMain (bpf_main : BpfMain) (region_start region_end packet : BitVec 64) (count fuel : ℕ)
    (mem : Mem 64) : Option (List (BitVec 32) × Mem 64) := do
  let packets ← loadPacketArr mem region_end fuel count region_start
  runPackets bpf_main count packet (storeAll mem packet (packets.flatMap XdpMd.fields))

/-- What the calls of a program find, apart from their arguments and the memory. What has not
    been initialized may be different for each of them. -/
structure Surroundings where
  world : World Lbl
  env : BitVec 64 → Env Slot
  machine : BitVec 64 → Machine Slot

/-- The world of a call. -/
def Surroundings.call (E : Surroundings) (ctx size : BitVec 64) : World Lbl :=
  { E.world with args := fun n => if n = 0 then ctx else size }

/-- The machine at the start of a call. -/
def Surroundings.start (E : Surroundings) (ctx : BitVec 64) (mem : Mem 64) : Machine Slot :=
  { E.machine ctx with mem := mem }

/-- What a run of compiled code has returned, and left in memory. -/
def returned : Res (Config Lbl Slot) (Ir.Halt Slot) → Option (BitVec 64 × Mem 64)
  | .done (.ret v m) => some (v, m.mem)
  | .done .ub => none
  | .cont _ => none

/-- The code of a program. -/
def codeMain (M : Module) (E : Surroundings) (fuel : ℕ) : BpfMain := fun ctx size mem =>
  returned (iter (step M.fn (E.call ctx size)) fuel (entry (E.env ctx) (E.start ctx mem)))

/-- What a run of the interpreter has returned, and left in memory. -/
def exited : Res Interp.State Isa.Halt → Option (BitVec 64 × Mem 64)
  | .done (.exited c) => some (c.reg 0, c.mem)
  | .done .stuck => none
  | .cont _ => none

/-- A program in the interpreter, as long as it only gets to states that the code is right
    in. -/
def interpMain (stackSize : ℕ) (insns : List EbpfInst) (E : Surroundings) (fuel : ℕ) : BpfMain :=
  fun ctx size mem =>
    let s := Interp.start (startCore (E.call ctx size) (E.start ctx mem))
    if ∀ t ∈ trace (interp stackSize E.world.func insns) (fun _ => true) fuel s,
        FaithfulAt stackSize insns t then
      exited (iter (interp stackSize E.world.func insns) fuel s)
    else none

section

variable {V : Verifier} {x : CompilerXDP} {extFuncNames lddwHelpers : List String} {patch : Bool}
  {M : Module} {E : Surroundings} {stackSize fuel count : ℕ} {ctx size packet v : BitVec 64}
  {mem mem' : Mem 64} {r : List (BitVec 32) × Mem 64}

theorem exited_eq_some {t : Res Interp.State Isa.Halt} (h : exited t = some (v, mem)) :
    ∃ c, t = .done (.exited c) ∧ c.reg 0 = v ∧ c.mem = mem := by
  cases t with
  | cont s => cases h
  | done r =>
    cases r with
    | stuck => cases h
    | exited c =>
      cases h
      exact ⟨c, rfl, rfl, rfl⟩

/-- One call. -/
theorem codeMain_of_interpMain (h : Accepts V x extFuncNames lddwHelpers patch M)
    (hW : E.world.Separates M.fn.blocks) (hcov : Covered x.insts)
    (hint : interpMain stackSize x.insts E fuel ctx size mem = some (v, mem')) :
    ∃ n, ∀ k ≥ n, codeMain M E k ctx size mem = some (v, mem') := by
  rw [interpMain] at hint
  split at hint
  · next hf =>
    obtain ⟨c, hc, rfl, rfl⟩ := exited_eq_some hint
    have hcall : (E.call ctx size).Separates M.fn.blocks := hW
    have himpl : Implements stackSize x.insts M (E.call ctx size) (E.env ctx) (E.start ctx mem) :=
      h.implements_of_faithfulAt hcall hcov fun n s hs => hf s (mem_trace_of_done hc hs)
    obtain ⟨_, n, m', ⟨⟩, hrun, rfl⟩ := himpl.exits _ _ hc
    refine ⟨n, fun k hk => ?_⟩
    rw [codeMain, iter_done_of_le hrun hk]
    rfl
  · cases hint

/-- All the calls. -/
theorem runPackets_of_interp (h : Accepts V x extFuncNames lddwHelpers patch M)
    (hW : E.world.Separates M.fn.blocks) (hcov : Covered x.insts)
    (hint : runPackets (interpMain stackSize x.insts E fuel) count packet mem = some r) :
    ∃ n, ∀ k ≥ n, runPackets (codeMain M E k) count packet mem = some r := by
  induction count generalizing packet mem r with
  | zero => exact ⟨0, fun _ _ => hint⟩
  | succ count ih =>
    obtain ⟨⟨v, mem₁⟩, hcall, hint⟩ := Option.bind_eq_some_iff.1 hint
    obtain ⟨⟨rets, mem₂⟩, hcalls, hint⟩ := Option.bind_eq_some_iff.1 hint
    obtain ⟨n₁, h₁⟩ := codeMain_of_interpMain h hW hcov hcall
    obtain ⟨n₂, h₂⟩ := ih hcalls
    refine ⟨max n₁ n₂, fun k hk => ?_⟩
    refine Option.bind_eq_some_iff.2 ⟨_, h₁ k (le_trans (Nat.le_max_left n₁ n₂) hk), ?_⟩
    exact Option.bind_eq_some_iff.2 ⟨_, h₂ k (le_trans (Nat.le_max_right n₁ n₂) hk), hint⟩

/-- The results of `main` are those of the interpreter on the packets in memory. -/
theorem runtimeMain_of_interp {start : BitVec 64} {n : ℕ} {ps : List (List (BitVec 16))}
    {rest : List (BitVec 16)} (h : Accepts V x extFuncNames lddwHelpers patch M)
    (hW : E.world.Separates M.fn.blocks) (hcov : Covered x.insts)
    (hregion : loadAll mem start 16 n = layout ps ++ rest) (hn : start.toNat + 2 * n < 2 ^ 32)
    (hps : ∀ p ∈ ps, Delimited stopSeq stopSeqNo p)
    (hint : runPackets (interpMain stackSize x.insts E fuel) ps.length packet
      (storeAll mem packet ((contexts start ps).flatMap XdpMd.fields)) = some r) :
    ∃ k₀, ∀ k ≥ k₀, runtimeMain (codeMain M E k) start (start + BitVec.ofNat 64 (2 * n)) packet
      ps.length k mem = some r := by
  obtain ⟨k₀, hk₀⟩ := runPackets_of_interp h hW hcov hint
  refine ⟨max (n + 1) k₀, fun k hk => ?_⟩
  have hfuel : n < k := le_trans (Nat.le_max_left (n + 1) k₀) hk
  refine Option.bind_eq_some_iff.2 ⟨_, (loadPacketArr_iff hregion hn hfuel).2 hps, ?_⟩
  exact hk₀ k (le_trans (Nat.le_max_right (n + 1) k₀) hk)

end

/-- A program that returns the first halfword of its packet. -/
def firstHalfword : List EbpfInst :=
  [⟨EBPF_OP_LDXW, 0, 1, 0, 0⟩, ⟨EBPF_OP_LDXH, 0, 0, 0, 0⟩, ⟨EBPF_OP_EXIT, 0, 0, 0, 0⟩]

/-- It runs on two packets, of which the second one is empty: what it finds there is a stop
    word. -/
theorem runtimeMain_firstHalfword :
    ∃ M mem, Accepts Verifier.shape { insts := firstHalfword } [] [] false M ∧
      ∃ k₀, ∀ k ≥ k₀, runtimeMain
        (codeMain M ⟨World.numbered, fun _ => Env.zero, fun _ => Machine.zero⟩ k) 0x80001000
        (0x80001000 + BitVec.ofNat 64 (2 * 12)) 0x80100000 2 k
        (storeAll (fun _ => 0) 0x80001000 (layout [[1, stopSeq, 2], []] ++ [7])) =
          some ([1, 0xFFFF], mem) := by
  obtain ⟨M, hM, hW⟩ := exists_accepts Verifier.shape { insts := firstHalfword } [] [] false 4
    (fun M => decide (World.numbered.Separates M.fn.blocks)) (by decide +kernel)
  have hrun : (runPackets (interpMain EBPF_STACK_SIZE firstHalfword
      ⟨World.numbered, fun _ => Env.zero, fun _ => Machine.zero⟩ 3) 2 0x80100000
      (storeAll (storeAll (fun _ => 0) 0x80001000 (layout [[1, stopSeq, 2], []] ++ [7])) 0x80100000
        ((contexts 0x80001000 [[1, stopSeq, 2], []]).flatMap XdpMd.fields))).map Prod.fst =
      some [1, 0xFFFF] := by decide +kernel
  obtain ⟨⟨rets, mem⟩, hint, rfl⟩ := Option.map_eq_some_iff.1 hrun
  exact ⟨M, mem, hM, runtimeMain_of_interp hM (of_decide_eq_true hW) (by decide +kernel)
    (loadAll_storeAll _ _ _ rfl (by decide)) (by decide) (by decide) hint⟩

end EbpfJit.Baremetal
