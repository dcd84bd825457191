import Fabric.Kernel.Loop
import Fabric.Kernel.Sum

/-! The kernel of `padd.h`. -/
namespace Fabric.PAdd
open Lib

def P_ADDR : BitVec 64 := 0
def A_ADDR : BitVec 64 := 1
def Z_ADDR : BitVec 64 := 3
def X1_ADDR : BitVec 64 := 4
def Y1_ADDR : BitVec 64 := 5
def X2_ADDR : BitVec 64 := 6
def Y2_ADDR : BitVec 64 := 7
def OUT_ADDR1 : BitVec 64 := 10
def OUT_ADDR2 : BitVec 64 := 11

/-- The instructions that `generate` appends. -/
def code : List VPUInstruction :=
  [ { op := .ldp, inputs := [.kAddr P_ADDR] },
    { op := .ld, inputs := [.kAddr A_ADDR], outputs := [.kReg 6] },
    { op := .ld, inputs := [.kAddr P_ADDR], outputs := [.kReg 5] },
    { op := .ld, inputs := [.kAddr Z_ADDR], outputs := [.kReg 12] },
    { op := .set, inputs := [.kValue 0], outputs := [.kReg 0] },
    { op := .ld, inputs := [.kAddr X1_ADDR], outputs := [.kReg 1] },
    { op := .ld, inputs := [.kAddr Y1_ADDR], outputs := [.kReg 2] },
    { op := .ld, inputs := [.kAddr X2_ADDR], outputs := [.kReg 3] },
    { op := .ld, inputs := [.kAddr Y2_ADDR], outputs := [.kReg 4] },
    -- if x1 or y1 equal zero
    { op := .or, inputs := [.kReg 1, .kReg 2], outputs := [.kReg 13] },
    { op := .add, inputs := [.kReg 3, .kReg 0], outputs := [.kReg 8] },
    { op := .add, inputs := [.kReg 4, .kReg 0], outputs := [.kReg 9] },
    { op := .beq, inputs := [.kReg 13, .kReg 12], outputs := [.kLabel "done"] },
    -- if x2 or y2 equal zero
    { op := .or, inputs := [.kReg 3, .kReg 4], outputs := [.kReg 13] },
    { op := .add, inputs := [.kReg 1, .kReg 0], outputs := [.kReg 8] },
    { op := .add, inputs := [.kReg 2, .kReg 0], outputs := [.kReg 9] },
    { op := .beq, inputs := [.kReg 13, .kReg 12], outputs := [.kLabel "done"] },
    { op := .beq, inputs := [.kReg 1, .kReg 3], outputs := [.kLabel "xsame"] },
    -- chord
    { op := .subp, inputs := [.kReg 2, .kReg 4], outputs := [.kReg 13] },
    { op := .addp, inputs := [.kReg 13, .kReg 5], outputs := [.kReg 14] },
    { op := .subp, inputs := [.kReg 1, .kReg 3], outputs := [.kReg 15] },
    { op := .addp, inputs := [.kReg 15, .kReg 5], outputs := [.kReg 20] },
    { op := .jal, inputs := [.kLabel "call_multinv"], outputs := [.kReg 10] },
    { op := .mulp, inputs := [.kReg 14, .kReg 8], outputs := [.kReg 7] },
    { op := .beq, inputs := [.kReg 0, .kReg 0], outputs := [.kLabel "intersect"] },
    -- result of multinv in R8
    { op := .set, inputs := [.kValue 1], outputs := [.kReg 8], label := "call_multinv" },
    { op := .set, inputs := [.kValue 1], outputs := [.kReg 22] },
    -- if x == 1, just return 1
    { op := .beq, inputs := [.kReg 20, .kReg 22], outputs := [.kLabel "mi_done"] },
    { op := .set, inputs := [.kValue 2], outputs := [.kReg 23] },
    { op := .sub, inputs := [.kReg 5, .kReg 23], outputs := [.kReg 21] },
    { op := .beq, inputs := [.kReg 21, .kReg 0], outputs := [.kLabel "mi_done"] },
    -- while loop
    { op := .and, inputs := [.kReg 21, .kReg 22], outputs := [.kReg 13], label := "while" },
    { op := .beq, inputs := [.kReg 13, .kReg 0], outputs := [.kLabel "next"] },
    { op := .mulp, inputs := [.kReg 8, .kReg 20], outputs := [.kReg 8] },
    { op := .div, inputs := [.kReg 21, .kReg 23], outputs := [.kReg 21], label := "next" },
    { op := .mulp, inputs := [.kReg 20, .kReg 20], outputs := [.kReg 20] },
    { op := .beq, inputs := [.kReg 21, .kReg 0], outputs := [.kLabel "mi_done"] },
    { op := .beq, inputs := [.kReg 0, .kReg 0], outputs := [.kLabel "while"] },
    { op := .ret, inputs := [.kReg 10], label := "mi_done" },
    -- x1 == x2 && y1 != y2 return (P, zero)
    { op := .beq, inputs := [.kReg 2, .kReg 4], outputs := [.kLabel "ysame"], label := "xsame" },
    { op := .or, inputs := [.kReg 5, .kReg 5], outputs := [.kReg 8] },
    { op := .or, inputs := [.kReg 12, .kReg 12], outputs := [.kReg 9] },
    { op := .beq, inputs := [.kReg 0, .kReg 0], outputs := [.kLabel "done"] },
    -- y1 == y2 && x1 == x2: tangent
    { op := .mulp, inputs := [.kReg 1, .kReg 1], outputs := [.kReg 13], label := "ysame" },
    { op := .set, inputs := [.kValue 3], outputs := [.kReg 14] },
    { op := .mulp, inputs := [.kReg 13, .kReg 14], outputs := [.kReg 15] },
    { op := .addp, inputs := [.kReg 15, .kReg 6], outputs := [.kReg 16] },
    { op := .set, inputs := [.kValue 2], outputs := [.kReg 14] },
    { op := .mulp, inputs := [.kReg 2, .kReg 14], outputs := [.kReg 20] },
    { op := .jal, inputs := [.kLabel "call_multinv"], outputs := [.kReg 10] },
    { op := .mulp, inputs := [.kReg 16, .kReg 8], outputs := [.kReg 7] },
    -- intersect
    { op := .mulp, inputs := [.kReg 7, .kReg 1], outputs := [.kReg 13], label := "intersect" },
    { op := .addp, inputs := [.kReg 2, .kReg 5], outputs := [.kReg 17] },
    { op := .subp, inputs := [.kReg 17, .kReg 13], outputs := [.kReg 14] },
    { op := .mulp, inputs := [.kReg 7, .kReg 7], outputs := [.kReg 15] },
    { op := .subp, inputs := [.kReg 5, .kReg 1], outputs := [.kReg 16] },
    { op := .subp, inputs := [.kReg 5, .kReg 3], outputs := [.kReg 17] },
    { op := .addp, inputs := [.kReg 16, .kReg 17], outputs := [.kReg 18] },
    { op := .addp, inputs := [.kReg 15, .kReg 18], outputs := [.kReg 8] },
    { op := .mulp, inputs := [.kReg 7, .kReg 8], outputs := [.kReg 13] },
    { op := .subp, inputs := [.kReg 5, .kReg 13], outputs := [.kReg 15] },
    { op := .subp, inputs := [.kReg 5, .kReg 14], outputs := [.kReg 16] },
    { op := .addp, inputs := [.kReg 15, .kReg 16], outputs := [.kReg 9] },
    { op := .st, inputs := [.kReg 8], outputs := [.kAddr OUT_ADDR1], label := "done" },
    { op := .st, inputs := [.kReg 9], outputs := [.kAddr OUT_ADDR2] } ]

def generate (prog : VPUProgram) : Option VPUProgram := prog.addInstrs code

/-- The kernel alone in a program. -/
def program : VPUProgram := ⟨code, by decide⟩

theorem generate_empty : generate .empty = some program := rfl

def loadOps : List Op :=
  [ .ldp 0, .ld 1 6, .ld 0 5, .ld 3 12, .set 0 0, .ld 4 1, .ld 5 2, .ld 6 3, .ld 7 4,
    .bin .or 1 2 13, .bin .add 3 0 8, .bin .add 4 0 9 ]

def secondOps : List Op :=
  [ .bin .or 3 4 13, .bin .add 1 0 8, .bin .add 2 0 9 ]

def chordOps : List Op :=
  [ .prime .subp 2 4 13, .prime .addp 13 5 14, .prime .subp 1 3 15, .prime .addp 15 5 20 ]

def tangentOps : List Op :=
  [ .prime .mulp 1 1 13, .set 3 14, .prime .mulp 13 14 15, .prime .addp 15 6 16, .set 2 14,
    .prime .mulp 2 14 20 ]

def intersectOps : List Op :=
  [ .prime .mulp 7 1 13, .prime .addp 2 5 17, .prime .subp 17 13 14, .prime .mulp 7 7 15,
    .prime .subp 5 1 16, .prime .subp 5 3 17, .prime .addp 16 17 18, .prime .addp 15 18 8,
    .prime .mulp 7 8 13, .prime .subp 5 13 15, .prime .subp 5 14 16, .prime .addp 15 16 9 ]

def ops : List Op :=
  loadOps ++ [ .beq 13 12 "done" ] ++ secondOps ++ [ .beq 13 12 "done", .beq 1 3 "xsame" ] ++
  chordOps ++ [ .jal "call_multinv" 10, .prime .mulp 14 8 7, .beq 0 0 "intersect",
    .set 1 8, .set 1 22, .beq 20 22 "mi_done", .set 2 23, .bin .sub 5 23 21, .beq 21 0 "mi_done" ] ++
  loopOps "mi_done" ++ [ .ret 10,
    .beq 2 4 "ysame", .bin .or 5 5 8, .bin .or 12 12 9, .beq 0 0 "done" ] ++
  tangentOps ++ [ .jal "call_multinv" 10, .prime .mulp 16 8 7 ] ++
  intersectOps ++ [ .st 8 10, .st 9 11 ]

theorem decode_code : code.map VPUInstruction.decode = ops.map .ok := rfl

theorem codeAt_program : CodeAt program 0 ops :=
  codeAt_of_decode [] [] rfl decode_code

/-- The labels of the kernel whose live copy is at `o`. -/
structure Linked (m : Labels) (o : ℕ) : Prop where
  done : m "done" = some (BitVec.ofNat 32 (o + 63))
  xsame : m "xsame" = some (BitVec.ofNat 32 (o + 39))
  ysame : m "ysame" = some (BitVec.ofNat 32 (o + 43))
  intersect : m "intersect" = some (BitVec.ofNat 32 (o + 51))
  multinv : m "call_multinv" = some (BitVec.ofNat 32 (o + 25))
  loop : LoopLabels m "mi_done" (o + 31) (o + 38)

/-- The labels a program defines by ending in this kernel, whatever precedes it. -/
theorem linked_of_append (pre : List VPUInstruction) (m : Labels) :
    Linked (loadLabels (pre ++ code) 0 m) pre.length := by
  rw [loadLabels_append, Nat.zero_add]
  exact ⟨rfl, rfl, rfl, rfl, rfl, ⟨rfl, rfl, rfl⟩⟩

/-- The indices of the inverse subroutine in the copy at `o`, from its entry to `ret`. -/
def inverseTrace (o : ℕ) (p x : Word) : List ℕ :=
  List.range' (o + 25) 3 ++ if x = 1 then [o + 38] else
    List.range' (o + 28) 3 ++ if p - 2 = 0 then [o + 38] else
      loopTrace (o + 31) (o + 31) 63 (p - 2) ++ [o + 38]

/-- The indices before `ret`. -/
def inverseBody (o : ℕ) (p x : Word) : List ℕ :=
  List.range' (o + 25) 3 ++ if x = 1 then [] else
    List.range' (o + 28) 3 ++ if p - 2 = 0 then [] else loopTrace (o + 31) (o + 31) 63 (p - 2)

theorem inverseTrace_eq (o : ℕ) (p x : Word) :
    inverseTrace o p x = inverseBody o p x ++ [o + 38] := by
  unfold inverseTrace inverseBody
  split_ifs <;> simp only [List.append_assoc, List.append_nil]

/-- The indices from the entry in the copy at `k` to `done`, the labels leading to
the copy at `o`. -/
def bodyTrace (k o : ℕ) (i : Inputs) : List ℕ :=
  List.range' k 13 ++ if i.firstZero then [] else
    List.range' (k + 13) 4 ++ if i.secondZero then [] else
      [k + 17] ++ if i.x1 = i.x2 then
        [o + 39] ++ if i.y1 = i.y2 then
          List.range' (o + 43) 7 ++ inverseTrace o i.p i.tangentDenom ++ List.range' (o + 50) 13
        else List.range' (o + 40) 3
      else
        List.range' (k + 18) 5 ++ inverseTrace o i.p i.chordDenom ++ [k + 23, k + 24] ++
          List.range' (o + 51) 12

def trace (k o : ℕ) (i : Inputs) : List ℕ := bodyTrace k o i ++ [o + 63, o + 64]

/-- The cells the kernel loads. -/
def inputs (s : Processor) : Inputs :=
  ⟨s.sram 0, s.sram 1, s.sram 3, s.sram 4, s.sram 5, s.sram 6, s.sram 7⟩

/-- The registers that the kernel loads and keeps. -/
structure Loaded (i : Inputs) (s : Processor) : Prop where
  p : s.p = i.p
  r0 : s.regs 0 = 0
  r1 : s.regs 1 = i.x1
  r2 : s.regs 2 = i.y1
  r3 : s.regs 3 = i.x2
  r4 : s.regs 4 = i.y2
  r5 : s.regs 5 = i.p
  r6 : s.regs 6 = i.a
  r12 : s.regs 12 = i.z

theorem Loaded.frame {i : Inputs} {s t : Processor} {R : List Reg} (h : Loaded i s)
    (hf : Frame R s t) (hR : ∀ r ∈ [0, 1, 2, 3, 4, 5, 6, 12], r ∉ R) : Loaded i t :=
  ⟨hf.p.trans h.p, (hf.regs 0 (hR 0 (by decide))).trans h.r0,
    (hf.regs 1 (hR 1 (by decide))).trans h.r1, (hf.regs 2 (hR 2 (by decide))).trans h.r2,
    (hf.regs 3 (hR 3 (by decide))).trans h.r3, (hf.regs 4 (hR 4 (by decide))).trans h.r4,
    (hf.regs 5 (hR 5 (by decide))).trans h.r5, (hf.regs 6 (hR 6 (by decide))).trans h.r6,
    (hf.regs 12 (hR 12 (by decide))).trans h.r12⟩

/-- The inverse subroutine is called with the argument `x` from index `j`. -/
structure Called (P x : Word) (j : ℕ) (s : Processor) : Prop where
  p : s.p = P
  zero : s.regs 0 = 0
  modulus : s.regs 5 = P
  arg : s.regs 20 = x
  link : s.regs 10 = BitVec.ofNat 64 j

theorem Loaded.called {i : Inputs} {x : Word} {j : ℕ} {s : Processor} (h : Loaded i s)
    (hx : s.regs 20 = x) (h10 : s.regs 10 = BitVec.ofNat 64 j) : Called i.p x j s :=
  ⟨h.p, h.r0, h.r5, hx, h10⟩

end Fabric.PAdd
