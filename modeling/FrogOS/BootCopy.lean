import FrogOS.BootRoutines

/-!
# The boot sector copies the disk

The two nested loops of the boot sector share `ecx`: it counts the reads, and in between is the
number of a sector, an address and a count of words. What carries the proof is where everything else
lies. The stack is between the boot sector and `0x9000`, the buffer at `0x10000`, the screen at
`0xb8000` and the copy above 4 MB, so that the copy cannot disturb the routines, and the number of
the read is found again on the stack after the words of a part.

## Main definitions

* `bootScratch`, `Copied` — what may have changed, and what has been copied
* `AtLoop`, `AtCopy` — the processor at the two labels, for the number of reads and of words
* `BootInv` — the states the boot sector goes through

## Main results

* `copyWord_spec`, `countIteration_spec` — one word, and the end of a part
* `boot_copiesDisk` — what is in memory at the end of the loop, and after a failed read
-/

namespace FrogOS

open ByteMemory RealMode StepSystem

namespace BootSector

/-! ### Memory -/

/-- The memory of the boot sector besides the copy: the buffer, the text screen, the variables and
the stack. -/
def bootScratch (L : BootLabels) : Set ℕ :=
  {x | x ∈ diskBuffer ∨ (0xb8000 ≤ x ∧ x < 0xb8fa0) ∨ (L.video ≤ x ∧ x < L.video + 8) ∨
    (L.driveNumber ≤ x ∧ x < L.dap + 16) ∨ (0x7e00 ≤ x ∧ x < 0x9000)}

/-- The first `n` bytes of the disk are at 4 MB. Nothing else has changed since `m₀`, but for the
memory of the boot sector. -/
structure Copied (L : BootLabels) (disk : ℕ → BitVec 8) (m₀ m : ByteMemory) (n : ℕ) : Prop where
  copy : ∀ k < n, m (0x400000 + k) = disk k
  frame : ∀ x, x ∉ bootScratch L → ¬ (0x400000 ≤ x ∧ x < 0x400000 + n) → m x = m₀ x

section copied

variable {L : BootLabels} {disk : ℕ → BitVec 8} {m₀ m m' : ByteMemory} {n : ℕ}

theorem lt_of_mem_bootScratch {x : ℕ} (h : x ∈ bootScratch L) : x < 0x400000 := by
  have hle := L.message_le
  have hvideo : L.video = L.message + 110 := rfl
  have hdap : L.dap = L.message + 127 := rfl
  rcases h with h | h | h | h | h
  · exact h.2.trans (by decide)
  all_goals omega

theorem mem_bootScratch_of_packet {x : ℕ} (h : L.driveNumber ≤ x) (h' : x < L.dap + 16) :
    x ∈ bootScratch L := Or.inr (Or.inr (Or.inr (Or.inl ⟨h, h'⟩)))

theorem mem_bootScratch_of_stack {x : ℕ} (h : 0x7e00 ≤ x) (h' : x < 0x9000) :
    x ∈ bootScratch L := Or.inr (Or.inr (Or.inr (Or.inr ⟨h, h'⟩)))

/-- The stack starts at `0x9000`. -/
theorem toNat_top {sp : BitVec 16} (h : sp = 0x9000) : sp.toNat = 0x9000 := by
  rw [h]
  rfl

theorem Copied.congr (h : Copied L disk m₀ m n) (hm : ∀ x, x ∉ bootScratch L → m' x = m x) :
    Copied L disk m₀ m' n := by
  constructor
  · intro k hk
    have hout : 0x400000 + k ∉ bootScratch L := fun hin => by
      have := lt_of_mem_bootScratch hin
      omega
    rw [hm _ hout]
    exact h.copy k hk
  · intro x hx hcopy
    rw [hm x hx]
    exact h.frame x hx hcopy

/-- The next word. -/
theorem Copied.store32 {w : BitVec 32} (h : Copied L disk m₀ m n)
    (hw : ∀ i < 4, store32 m (0x400000 + n) w (0x400000 + n + i) = disk (n + i)) :
    Copied L disk m₀ (store32 m (0x400000 + n) w) (n + 4) := by
  constructor
  · intro k hk
    rcases Nat.lt_or_ge k n with hlt | hge
    · rw [store32_of_outside (by omega)]
      exact h.copy k hlt
    · obtain ⟨i, rfl⟩ := Nat.exists_eq_add_of_le hge
      rw [← Nat.add_assoc]
      exact hw i (by omega)
  · intro x hx hcopy
    rw [store32_of_outside (by omega)]
    exact h.frame x hx (by omega)

end copied

/-! ### The processor at the labels -/

/-- The processor at `.loop`, after `j` reads. -/
structure AtLoop (L : BootLabels) (disk : ℕ → BitVec 8) (drive : BitVec 8) (m₀ : ByteMemory)
    (j : ℕ) (c : Cpu) : Prop where
  flat : Flat c
  sp : c.sp = 0x9000
  ecx : c.reg .ecx = BitVec.ofNat 32 j
  packet : PacketReady L drive c.mem
  copied : Copied L disk m₀ c.mem (0x10000 * j)

/-- The processor at `.copy_loop`, after `w` words of part `j`. The number of the part is on the
stack. -/
structure AtCopy (L : BootLabels) (disk : ℕ → BitVec 8) (drive : BitVec 8) (m₀ : ByteMemory)
    (j w : ℕ) (c : Cpu) : Prop where
  flat : Flat c
  fs : c.seg .fs = 0x1000
  sp : c.sp = 0x8ffc
  count : load32 c.mem 0x8ffc = BitVec.ofNat 32 j
  ecx : c.reg .ecx = BitVec.ofNat 32 (0x4000 - w)
  esi : c.reg .esi = BitVec.ofNat 32 (4 * w)
  edi : c.reg .edi = BitVec.ofNat 32 (0x400000 + (0x10000 * j + 4 * w))
  packet : PacketReady L drive c.mem
  buffer : ∀ k < 0x10000, c.mem (0x10000 + k) = disk (0x10000 * j + k)
  copied : Copied L disk m₀ c.mem (0x10000 * j + 4 * w)

section copy

variable {L : BootLabels} {disk : ℕ → BitVec 8} {drive : BitVec 8} {m₀ : ByteMemory} {j w : ℕ}
  {c : Cpu}

/-- `loop` counts in the lower half. -/
theorem setLow16_sub_one {n : ℕ} (hn : n < 2 ^ 16) (h : c.reg .ecx = BitVec.ofNat 32 n)
    (hpos : 0 < n) : (c.setLow16 .ecx (c.low16 .ecx - 1)).reg .ecx = BitVec.ofNat 32 (n - 1) := by
  have hhigh : (c.reg .ecx).extractLsb' 16 16 = 0 := by
    rw [h]
    apply BitVec.eq_of_toNat_eq
    rw [BitVec.extractLsb'_toNat, toNat_ofNat_of_lt (by omega), Nat.shiftRight_eq_div_pow,
      Nat.div_eq_of_lt hn]
    rfl
  have hlow : c.low16 .ecx - 1 = BitVec.ofNat 16 (n - 1) := by
    rw [Cpu.low16, h, BitVec.setWidth_ofNat_of_le (by decide)]
    obtain ⟨k, rfl⟩ := Nat.exists_eq_add_of_lt hpos
    rw [Nat.zero_add, Nat.add_sub_cancel, BitVec.ofNat_add]
    exact BitVec.add_sub_cancel ..
  rw [Cpu.setLow16, Cpu.set_reg_self, hhigh, hlow]
  apply BitVec.eq_of_toNat_eq
  have hzero : (0 : BitVec 16).toNat = 0 := rfl
  rw [BitVec.toNat_append, hzero, Nat.zero_shiftLeft, Nat.zero_or, BitVec.toNat_ofNat,
    toNat_ofNat_of_lt (by omega), Nat.mod_eq_of_lt (by omega)]

/-- The copy is above everything else, and below 4 GB. -/
theorem copyWord_spec (hj : j < 256) (hw : w < 0x4000) (h : AtCopy L disk drive m₀ j w c) :
    ∃ t, copyWord c = some t ∧ AtCopy L disk drive m₀ j (w + 1) t := by
  have hle := L.message_le
  have hdap : L.dap = L.driveNumber + 1 := rfl
  have hdrive : L.driveNumber = L.message + 126 := rfl
  have hesi : (c.reg .esi).toNat = 4 * w := by rw [h.esi, toNat_ofNat_of_lt (by omega)]
  have hedi : (c.reg .edi).toNat = 0x400000 + (0x10000 * j + 4 * w) := by
    rw [h.edi, toNat_ofNat_of_lt (by omega)]
  let v := load32 c.mem (0x10000 + 4 * w)
  have hread : c.read32 .fs (c.reg .esi) = some v := by
    have hfs : (0x1000 : BitVec 16).toNat * 16 = 0x10000 := rfl
    rw [Cpu.read32, Cpu.access, if_pos (by rw [hesi, h.flat.limit_fs]; omega), h.fs, hesi, hfs,
      Nat.mod_eq_of_lt (by omega)]
    rfl
  let d := c.set .eax v
  have hwrite : d.write .gs (d.reg .edi) (bytes32 (d.reg .eax))
      = some { d with mem := store32 c.mem (0x400000 + (0x10000 * j + 4 * w)) v } := by
    have hdedi : d.reg .edi = c.reg .edi := Cpu.set_reg_of_ne (by decide) _
    have hdeax : d.reg .eax = v := Cpu.set_reg_self ..
    have hfit : (d.reg .edi).toNat + (bytes32 v).length ≤ d.limit .gs := by
      rw [hdedi, hedi, length_bytes32]
      exact le_of_le_of_eq (by omega) h.flat.limit_gs.symm
    rw [hdeax, Cpu.write_of_zero (c := d) _ h.flat.gs hfit, hdedi, hedi]
    rfl
  refine ⟨_, Option.bind_eq_some_iff.mpr ⟨_, hread, Option.bind_eq_some_iff.mpr
    ⟨_, hwrite, rfl⟩⟩, ?_⟩
  have hout : ∀ x, x < 0x400000 →
      store32 c.mem (0x400000 + (0x10000 * j + 4 * w)) v x = c.mem x := fun x hx =>
    store32_of_outside (by omega)
  constructor
  · exact h.flat.congr rfl rfl
  · exact h.fs
  · exact h.sp
  · exact (load32_congr fun i hi => hout _ (by omega)).trans h.count
  · exact setLow16_sub_one (n := 0x4000 - w) (by omega) h.ecx (by omega)
  · have hadd : (c.reg .esi + 4) = BitVec.ofNat 32 (4 * (w + 1)) := by
      rw [h.esi]
      exact (BitVec.ofNat_add ..).symm
    exact hadd
  · have hadd : (c.reg .edi + 4) = BitVec.ofNat 32 (0x400000 + (0x10000 * j + 4 * (w + 1))) := by
      rw [h.edi]
      exact (BitVec.ofNat_add ..).symm
    exact hadd
  · exact h.packet.congr fun x _ hx _ => hout x (by omega)
  · exact fun k hk => (hout _ (by omega)).trans (h.buffer k hk)
  · refine h.copied.store32 fun i hi => ?_
    rw [store32_load32_of_inside hi, Nat.add_assoc, h.buffer _ (by omega), Nat.add_assoc]

/-- The end of a part: the number of the next one is in `ecx`. -/
theorem countIteration_spec (h : AtCopy L disk drive m₀ j 0x4000 c) :
    ∃ t, countIteration c = some t ∧ AtLoop L disk drive m₀ (j + 1) t := by
  have hsp : (c.sp.setWidth 32).toNat = 0x8ffc := by rw [h.sp]; rfl
  have hread : c.read32 .ss (c.sp.setWidth 32) = some (BitVec.ofNat 32 j) := by
    rw [Cpu.read32_of_zero h.flat.ss (by rw [hsp, h.flat.limit_ss]; decide), hsp, h.count]
  refine ⟨_, Option.bind_eq_some_iff.mpr ⟨_, Option.bind_eq_some_iff.mpr ⟨_, hread, rfl⟩, rfl⟩, ?_⟩
  constructor
  · exact h.flat.congr rfl rfl
  · have hadd : c.sp + 4 = 0x9000 := by rw [h.sp]; rfl
    exact hadd
  · exact (BitVec.ofNat_add j 1).symm
  · exact h.packet
  · exact h.copied

/-- A read, whether it succeeds or not, keeps to the memory of the boot sector. -/
theorem Copied.of_returns {n : ℕ} {success : Bool} {t : Cpu} (h : Copied L disk m₀ c.mem n)
    (hsp : c.sp = 0x9000) (hret : Cpu.Returns (readArea L success) 0x7e00 c t) :
    Copied L disk m₀ t.mem n := by
  have hdap : L.dap = L.driveNumber + 1 := rfl
  have htop := toNat_top hsp
  refine h.congr fun x hx => hret.mem x (fun hin => ?_) fun hin => ?_
  · rcases hin with hbuffer | hpacket
    · exact hx (Or.inl hbuffer)
    · have hrange : L.dap ≤ x ∧ x < L.dap + 16 := by
        split at hpacket <;> rw [Set.mem_Ico] at hpacket <;> omega
      exact hx (mem_bootScratch_of_packet (by omega) (by omega))
  · exact hx (mem_bootScratch_of_stack (by omega) (by omega))

theorem AtLoop.readReady (h : AtLoop L disk drive m₀ j c) : ReadReady L drive 22 c := by
  have htop := toNat_top h.sp
  exact ⟨h.flat, h.packet, by omega⟩

theorem AtLoop.of_returns {t : Cpu} (h : AtLoop L disk drive m₀ j c)
    (hecx : t.reg .ecx = BitVec.ofNat 32 j)
    (hret : Cpu.Returns (readArea L true) 0x7e00 c t) : AtLoop L disk drive m₀ j t := by
  have hle := L.message_le
  have hdap : L.dap = L.message + 127 := rfl
  refine ⟨h.flat.congr hret.seg hret.limit, hret.sp.trans h.sp, hecx,
    h.packet.congr fun x _ hx hlba => hret.mem x (fun hin => ?_) (by omega),
    h.copied.of_returns h.sp hret⟩
  rcases hin with hbuffer | hpacket
  · have := hbuffer.1
    omega
  · exact hlba hpacket

/-- The number of the part goes on the stack, and the copy starts at its place. -/
theorem prepareCopy_spec (hj : j < 256) (h : AtLoop L disk drive m₀ j c)
    (hbuffer : ∀ k < 0x10000, c.mem (0x10000 + k) = disk (0x10000 * j + k)) :
    ∃ t, prepareCopy c = some t ∧ AtCopy L disk drive m₀ j 0 t := by
  have hle := L.message_le
  have hdap : L.dap = L.message + 127 := rfl
  have hlen := length_bytes32 (c.reg .ecx)
  have htop := toNat_top h.sp
  have hroom : Cpu.StackRoom 0x7e00 c (bytes32 (c.reg .ecx)).length := by
    rw [hlen]
    exact h.readReady.stackRoom.mono (by decide)
  have hmem : (c.pushed (bytes32 (c.reg .ecx))).mem = store32 c.mem 0x8ffc (c.reg .ecx) := by
    rw [Cpu.pushed, hlen, htop]
    rfl
  have hout : ∀ x, x < 0x8ffc ∨ 0x9000 ≤ x →
      (c.pushed (bytes32 (c.reg .ecx))).mem x = c.mem x := fun x hx => by
    rw [hmem]
    exact store32_of_outside hx
  refine ⟨_, Option.bind_eq_some_iff.mpr ⟨_, Cpu.push_eq hroom, rfl⟩, ?_⟩
  constructor
  · obtain ⟨h₁, h₂, h₃, h₄, h₅, h₆, h₇⟩ := h.flat
    exact ⟨h₁, h₂, h₃, h₄, h₅, h₆, h₇⟩
  · exact Cpu.low16_setLow16 ..
  · have hsp : c.sp - BitVec.ofNat 16 (bytes32 (c.reg .ecx)).length = 0x8ffc := by
      rw [hlen, h.sp]
      rfl
    exact hsp
  · have hcount : load32 (c.pushed (bytes32 (c.reg .ecx))).mem 0x8ffc = BitVec.ofNat 32 j := by
      rw [hmem, load32_store32, h.ecx]
    exact hcount
  · rfl
  · rfl
  · have hdest : c.reg .ecx <<< 16 + 0x400000 = BitVec.ofNat 32 (0x400000 + 0x10000 * j) := by
      rw [h.ecx]
      apply BitVec.eq_of_toNat_eq
      have hbase : (0x400000 : BitVec 32).toNat = 0x400000 := rfl
      rw [BitVec.toNat_add, BitVec.toNat_shiftLeft, toNat_ofNat_of_lt (by omega),
        toNat_ofNat_of_lt (by omega), hbase, Nat.shiftLeft_eq]
      omega
    exact hdest
  · exact h.packet.congr fun x _ hx _ => hout x (by omega)
  · exact fun k hk => (hout _ (by omega)).trans (hbuffer k hk)
  · refine h.copied.congr fun x hx => hout x ?_
    by_contra hin
    exact hx (mem_bootScratch_of_stack (by omega) (by omega))

end copy

/-! ### The start -/

/-- The state in which the BIOS enters the boot sector. -/
structure BootEntry (L : BootLabels) (drive : BitVec 8) (s : BootSector) : Prop where
  place : s.place = .start
  reads : s.reads = 0
  ds : s.cpu.seg .ds = 0
  ss : s.cpu.seg .ss = 0
  limit_ds : s.cpu.limit .ds = 2 ^ 16
  limit_ss : s.cpu.limit .ss = 2 ^ 16
  limit_fs : s.cpu.limit .fs = 2 ^ 16
  drive_eq : s.cpu.low8 .edx = drive
  data : L.HoldsData s.cpu.mem

section start

variable {L : BootLabels} {disk : ℕ → BitVec 8} {drive : BitVec 8} {m : ByteMemory}

theorem getElem?_of_holdsData (h : L.HoldsData m) {i : ℕ} (hi : i < 143) :
    bootData[i]? = some (m (L.message + i)) := by
  have hlen : bootData.length = 143 := rfl
  rw [List.getElem?_eq_getElem (hlen ▸ hi), h i (hlen ▸ hi)]

theorem isText_unrealMessage (h : L.HoldsData m) : IsText m L.unrealMessage 21 := by
  have hletters : ∀ i < 21, bootData[22 + i]? ≠ some 0 := by decide
  have hend : bootData[22 + 21]? = some 0 := by decide
  constructor
  · intro i hi hzero
    refine hletters i hi ?_
    rw [getElem?_of_holdsData h (by omega), ← Nat.add_assoc]
    exact congrArg some hzero
  · rw [getElem?_of_holdsData h (by omega), Option.some_inj] at hend
    exact hend

theorem load32_video (h : L.HoldsData m) : load32 m L.video = BitVec.ofNat 32 0xb8000 := by
  have hbytes : ∀ i < 4, bootData[110 + i]? = some ((0xb8000 : BitVec 32).extractLsb' (8 * i) 8) :=
    by decide
  have hload : load32 m L.video = load32 (store32 m L.video 0xb8000) L.video := by
    refine load32_congr fun i hi => ?_
    have hbyte := (getElem?_of_holdsData h (by omega)).symm.trans (hbytes i hi)
    rw [store32_of_inside hi, ← Option.some_inj, ← hbyte, BootLabels.video, Nat.add_assoc]
  rw [hload, load32_store32]
  rfl

/-- The drive is stored by the first instructions. -/
theorem packetReady_of_holdsData (h : L.HoldsData m) :
    PacketReady L drive (storeBytes m L.driveNumber [drive]) := by
  have hdap : L.dap = L.message + 127 := rfl
  have hdrive : L.driveNumber = L.message + 126 := rfl
  have hlen : dapHeader.length = 8 := rfl
  have hout : ∀ i, 127 ≤ i → storeBytes m L.driveNumber [drive] (L.message + i)
      = m (L.message + i) := fun i hi => storeBytes_of_outside (Or.inr (by
    rw [List.length_singleton]
    omega))
  constructor
  · have hlen' : 0 < [drive].length := Nat.zero_lt_one
    exact storeBytes_of_inside hlen'
  · intro i hi
    have hheader : ∀ i < 8, bootData[127 + i]? = dapHeader[i]? := by decide
    have hbyte := (getElem?_of_holdsData h (by omega)).symm.trans (hheader i (hlen ▸ hi))
    rw [List.getElem?_eq_getElem hi, Option.some_inj] at hbyte
    rw [hdap, Nat.add_assoc, hout _ (by omega), hbyte]
  · have hzero : ∀ i < 4, bootData[139 + i]? = some 0 := by decide
    have hload : load32 (storeBytes m L.driveNumber [drive]) (L.dap + 12) = load32 (fun _ => 0) 0 :=
      load32_congr fun i hi => by
        have hbyte := (getElem?_of_holdsData h (by omega)).symm.trans (hzero i hi)
        rw [Option.some_inj] at hbyte
        rw [hdap, Nat.add_assoc, Nat.add_assoc, hout _ (by omega)]
        rw [← Nat.add_assoc 127 12 i]
        exact hbyte
    rw [hload]
    rfl

theorem flat_unrealMode {c : Cpu} (hds : c.seg .ds = 0) (hss : c.seg .ss = 0)
    (hlds : c.limit .ds = 2 ^ 16) (hlss : c.limit .ss = 2 ^ 16) (hlfs : c.limit .fs = 2 ^ 16) :
    Flat (unrealMode c) :=
  ⟨hds, hss, rfl, hlds, hlss, hlfs, rfl⟩

/-- What the call for the first message changes, seen from the start: the screen, `video` and the
stack. -/
theorem mem_of_returns_message {c d t : Cpu} {v : ℕ} (hd : d.sp = 0x9000)
    (hmem : d.mem = storeBytes c.mem L.driveNumber [drive])
    (hret : Cpu.Returns (messageArea L v 21) 0x7e00 d t) (hv : 0xb8000 ≤ v)
    (hv' : v + 2 * 21 ≤ 0xb8fa0) {x : ℕ} (hx : x ∉ bootScratch L) : t.mem x = c.mem x := by
  have hdap : L.dap = L.driveNumber + 1 := rfl
  have htop := toNat_top hd
  have harea : x ∉ messageArea L v 21 := fun hin => by
    rcases hin with hscreen | hvideo
    · have := hscreen.1
      have := hscreen.2
      exact hx (Or.inr (Or.inl (by omega)))
    · have := hvideo.1
      have := hvideo.2
      exact hx (Or.inr (Or.inr (Or.inl (by omega))))
  have hstack : ¬ (0x7e00 ≤ x ∧ x < d.sp.toNat) := fun hin =>
    hx (mem_bootScratch_of_stack (by omega) (by omega))
  have hout : x < L.driveNumber ∨ L.driveNumber + [drive].length ≤ x := by
    rw [List.length_singleton]
    by_contra hin
    exact hx (mem_bootScratch_of_packet (by omega) (by omega))
  rw [hret.mem x harea hstack, hmem]
  exact storeBytes_of_outside hout

/-- The first message leaves the drive stored and the packet as it was. -/
theorem start_spec {s : BootSector} (h : BootEntry L drive s) :
    ∃ t, start L s.cpu = some t ∧ AtLoop L disk drive s.cpu.mem 0 t := by
  have hle := L.message_le
  have hdap : L.dap = L.message + 127 := rfl
  have hdrive : L.driveNumber = L.message + 126 := rfl
  have hvid : L.video = L.message + 110 := rfl
  have hunreal : L.unrealMessage = L.message + 22 := rfl
  let m₁ := storeBytes s.cpu.mem L.driveNumber [drive]
  let c : Cpu := { s.cpu with sp := 0x9000, mem := m₁ }
  have hwrite : ({ s.cpu with sp := 0x9000 } : Cpu).write .ds (BitVec.ofNat 32 L.driveNumber)
      [s.cpu.low8 .edx] = some c := by
    have hp : (BitVec.ofNat 32 L.driveNumber).toNat = L.driveNumber :=
      toNat_ofNat_of_lt (by omega)
    have hfit : (BitVec.ofNat 32 L.driveNumber).toNat + [s.cpu.low8 .edx].length
        ≤ s.cpu.limit .ds := by
      rw [hp, h.limit_ds, List.length_singleton]
      omega
    rw [Cpu.write_of_zero (c := { s.cpu with sp := 0x9000 }) _ h.ds hfit, hp, h.drive_eq]
  -- the processor at the call
  let d := (unrealMode c).set .esi (BitVec.ofNat 32 L.unrealMessage)
  have hflat : Flat d :=
    (flat_unrealMode (c := c) h.ds h.ss h.limit_ds h.limit_ss h.limit_fs).congr rfl rfl
  have htop : d.sp.toNat = 0x9000 := rfl
  have hroom : Cpu.StackRoom 0x7e00 d 2 := ⟨hflat.ss, hflat.limit_ss, by rw [htop]; decide⟩
  have hpushed : ∀ x, x < 0x8ffe → (d.pushed (bytes16 L.unrealRet)).mem x = m₁ x := fun x hx =>
    storeBytes_of_outside (Or.inl hx)
  have htext : IsText (d.pushed (bytes16 L.unrealRet)).mem L.unrealMessage 21 := by
    refine (isText_unrealMessage h.data).congr fun x hx hx' => ?_
    rw [hpushed x (by omega)]
    exact storeBytes_of_outside (Or.inl (by omega))
  have hvideo : load32 (d.pushed (bytes16 L.unrealRet)).mem L.video = BitVec.ofNat 32 0xb8000 := by
    rw [← load32_video h.data]
    refine load32_congr fun i hi => ?_
    rw [hpushed _ (by omega)]
    exact storeBytes_of_outside (Or.inl (by omega))
  obtain ⟨t, ht, -, hret⟩ := writeString_spec (c := d.pushed (bytes16 L.unrealRet))
    (hflat.congr rfl rfl) htext rfl hvideo (by omega) (by omega) (by omega)
  have harea : ∀ x ∈ messageArea L 0xb8000 21, x < 0x7e00 ∨ d.sp.toNat ≤ x := by
    rintro x (hscreen | hvideo)
    · have := hscreen.1
      exact Or.inr (by omega)
    · have := hvideo.2
      exact Or.inl (by omega)
  obtain ⟨u, hu, -, -, humem, huret⟩ :=
    (hret.mono subset_rfl (by omega)).call hroom harea ht
  refine ⟨u.xorSelf .ecx, Option.bind_eq_some_iff.mpr ⟨_, hwrite, Option.bind_eq_some_iff.mpr
    ⟨_, hu, rfl⟩⟩, hflat.congr huret.seg huret.limit, huret.sp, rfl, ?_, ?_, ?_⟩
  · refine (packetReady_of_holdsData h.data).congr fun x hx hx' _ =>
      huret.mem x (fun hin => ?_) (by omega)
    rcases hin with hscreen | hvideo
    · have := hscreen.1
      omega
    · have := hvideo.2
      omega
  · exact fun k hk => absurd hk (Nat.not_lt_zero k)
  · exact fun x hx _ => mem_of_returns_message rfl rfl huret (by omega) (by omega) hx

end start

/-! ### Single steps -/

section steps

variable {L : BootLabels} {int13 : ℕ → Cpu → Cpu} {disk : ℕ → BitVec 8} {sectors : ℕ}
  {drive : BitVec 8} {ok : ℕ → Bool} {m₀ : ByteMemory} {j w : ℕ} {c : Cpu}

/-- A read that succeeds. -/
theorem step_loop_of_true (hdisk : ReadsDisk int13 disk sectors drive ok)
    (hsectors : 128 * 256 ≤ sectors) (hj : j < 256) (hok : ok j = true)
    (h : AtLoop L disk drive m₀ j c) :
    ∃ t, step L int13 ⟨.loop, c, j⟩ () = some ⟨.copyLoop, t, j + 1⟩ ∧
      AtCopy L disk drive m₀ j 0 t := by
  obtain ⟨d, hd, hecx, hcf, hbuffer, hret⟩ := readNext_spec (hdisk j) hsectors hj h.ecx h.readReady
  rw [hok] at hcf hret
  obtain ⟨t, ht, hcopy⟩ := prepareCopy_spec hj (h.of_returns hecx hret) (hbuffer hok)
  refine ⟨t, Option.bind_eq_some_iff.mpr ⟨d, hd, ?_⟩, hcopy⟩
  rw [if_neg (by rw [hcf]; exact Bool.false_ne_true), ht]
  rfl

/-- A read that fails. The carry flag survives the pops. -/
theorem step_loop_of_false (hdisk : ReadsDisk int13 disk sectors drive ok)
    (hsectors : 128 * 256 ≤ sectors) (hj : j < 256) (hfail : ok j = false)
    (h : AtLoop L disk drive m₀ j c) :
    ∃ t, step L int13 ⟨.loop, c, j⟩ () = some ⟨.readError, t, j + 1⟩ ∧
      Copied L disk m₀ t.mem (0x10000 * j) := by
  obtain ⟨d, hd, -, hcf, -, hret⟩ := readNext_spec (hdisk j) hsectors hj h.ecx h.readReady
  rw [hfail] at hcf
  exact ⟨d, Option.bind_eq_some_iff.mpr ⟨d, hd, if_pos hcf⟩, h.copied.of_returns h.sp hret⟩

theorem low16_of_atCopy (hw : w ≤ 0x4000) (h : AtCopy L disk drive m₀ j w c) :
    c.low16 .ecx = 0 ↔ w = 0x4000 := by
  have hlow : (c.low16 .ecx).toNat = 0x4000 - w := by
    rw [Cpu.low16, h.ecx, BitVec.toNat_setWidth, toNat_ofNat_of_lt (by omega),
      Nat.mod_eq_of_lt (by omega)]
  constructor
  · intro hzero
    have : (0 : BitVec 16).toNat = 0 := rfl
    rw [hzero] at hlow
    omega
  · rintro rfl
    exact BitVec.eq_of_toNat_eq hlow

/-- A word that is not the last of its part. -/
theorem step_copyLoop_of_lt (hj : j < 256) (hw : w + 1 < 0x4000)
    (h : AtCopy L disk drive m₀ j w c) :
    ∃ t, step L int13 ⟨.copyLoop, c, j + 1⟩ () = some ⟨.copyLoop, t, j + 1⟩ ∧
      AtCopy L disk drive m₀ j (w + 1) t := by
  obtain ⟨t, ht, hcopy⟩ := copyWord_spec hj (by omega) h
  have hne : t.low16 .ecx ≠ 0 := fun hzero => by
    have := (low16_of_atCopy hw.le hcopy).mp hzero
    omega
  exact ⟨t, Option.bind_eq_some_iff.mpr ⟨t, ht, if_pos hne⟩, hcopy⟩

theorem slt_readIterations (hj : j < 256) :
    (BitVec.ofNat 32 (j + 1)).slt readIterations = true ↔ j + 1 < 256 := by
  have hiter : readIterations.toInt = 256 := rfl
  have hnat : (BitVec.ofNat 32 (j + 1)).toNat = j + 1 := toNat_ofNat_of_lt (by omega)
  rw [BitVec.slt_iff_toInt_lt, hiter, BitVec.toInt_eq_toNat_of_lt (by omega), hnat]
  omega

/-- The last word of a part. -/
theorem step_copyLoop_of_eq (hj : j < 256) (hw : w + 1 = 0x4000)
    (h : AtCopy L disk drive m₀ j w c) :
    ∃ t, step L int13 ⟨.copyLoop, c, j + 1⟩ ()
        = some ⟨if j + 1 < 256 then .loop else .done, t, j + 1⟩ ∧
      AtLoop L disk drive m₀ (j + 1) t := by
  obtain ⟨d, hd, hcopy⟩ := copyWord_spec hj (by omega) h
  rw [hw] at hcopy
  have hzero : ¬ d.low16 .ecx ≠ 0 := not_not_intro ((low16_of_atCopy le_rfl hcopy).mpr rfl)
  obtain ⟨t, ht, hloop⟩ := countIteration_spec hcopy
  refine ⟨t, Option.bind_eq_some_iff.mpr ⟨d, hd, ?_⟩, hloop⟩
  rw [if_neg hzero]
  refine Option.bind_eq_some_iff.mpr ⟨t, ht, ?_⟩
  rw [hloop.ecx]
  by_cases hlt : j + 1 < 256
  · rw [if_pos ((slt_readIterations hj).mpr hlt), if_pos hlt]
  · rw [if_neg fun hslt => hlt ((slt_readIterations hj).mp hslt), if_neg hlt]

end steps

/-! ### Whole runs -/

/-- The states from `s₀` to the end of the loop, with how far the copy is. -/
inductive BootInv (L : BootLabels) (disk : ℕ → BitVec 8) (drive : BitVec 8) (ok : ℕ → Bool)
    (s₀ : BootSector) : BootSector → Prop
  | start : BootInv L disk drive ok s₀ s₀
  | loop {j : ℕ} {c : Cpu} (hj : j < 256) (hok : ∀ i < j, ok i = true)
      (h : AtLoop L disk drive s₀.cpu.mem j c) : BootInv L disk drive ok s₀ ⟨.loop, c, j⟩
  | copyLoop {j w : ℕ} {c : Cpu} (hj : j < 256) (hok : ∀ i < j + 1, ok i = true) (hw : w < 0x4000)
      (h : AtCopy L disk drive s₀.cpu.mem j w c) :
      BootInv L disk drive ok s₀ ⟨.copyLoop, c, j + 1⟩
  | done {c : Cpu} {n : ℕ} (hok : ∀ i < 256, ok i = true)
      (h : Copied L disk s₀.cpu.mem c.mem (0x10000 * 256)) :
      BootInv L disk drive ok s₀ ⟨.done, c, n⟩
  | readError {i n : ℕ} {c : Cpu} (hi : i < 256) (hok : ∀ j < i, ok j = true)
      (hfail : ok i = false) (h : Copied L disk s₀.cpu.mem c.mem (0x10000 * i)) :
      BootInv L disk drive ok s₀ ⟨.readError, c, n⟩

/-- The places before the end of the loop. -/
def Place.Active : Place → Prop
  | .start | .loop | .copyLoop => True
  | _ => False

/-- How much is left to do. -/
def remaining (s : BootSector) : ℕ :=
  match s.place with
  | .start => 257 * 0x8000
  | .loop => (256 - s.reads) * 0x8000
  | .copyLoop => (256 - s.reads) * 0x8000 + (s.cpu.reg .ecx).toNat
  | _ => 0

section runs

variable {L : BootLabels} {int13 : ℕ → Cpu → Cpu} {disk : ℕ → BitVec 8} {sectors : ℕ}
  {drive : BitVec 8} {ok : ℕ → Bool} {s₀ s t : BootSector}

/-- Up to the end of the loop there is always a next step, and less to do after it. -/
theorem BootInv.progress (hentry : BootEntry L drive s₀)
    (hdisk : ReadsDisk int13 disk sectors drive ok) (hsectors : 128 * 256 ≤ sectors)
    (h : BootInv L disk drive ok s₀ s) (hactive : s.place.Active) :
    ∃ t, step L int13 s () = some t ∧ BootInv L disk drive ok s₀ t ∧
      remaining t < remaining s := by
  cases h with
  | start =>
    obtain ⟨c, hc, hloop⟩ : ∃ c, BootSector.start L s₀.cpu = some c ∧
        AtLoop L disk drive s₀.cpu.mem 0 c := start_spec hentry
    refine ⟨⟨.loop, c, 0⟩, ?_, .loop (by decide) (fun i hi => absurd hi (Nat.not_lt_zero i)) hloop,
      ?_⟩
    · rw [step, hentry.place]
      exact Option.map_eq_some_iff.mpr ⟨c, hc, by rw [hentry.reads]⟩
    · simp only [remaining, hentry.place]
      omega
  | @loop j c hj hok hloop =>
    cases hread : ok j with
    | true =>
      obtain ⟨d, hd, hcopy⟩ := step_loop_of_true hdisk hsectors hj hread hloop
      refine ⟨_, hd, .copyLoop hj (fun i hi => ?_) (by decide) hcopy, ?_⟩
      · rcases Nat.lt_succ_iff_lt_or_eq.mp hi with hlt | rfl
        · exact hok i hlt
        · exact hread
      · have hecx : (d.reg .ecx).toNat = 0x4000 := by rw [hcopy.ecx]; rfl
        simp only [remaining, hecx]
        omega
    | false =>
      obtain ⟨d, hd, hcopied⟩ := step_loop_of_false hdisk hsectors hj hread hloop
      refine ⟨_, hd, .readError hj hok hread hcopied, ?_⟩
      simp only [remaining]
      omega
  | @copyLoop j w c hj hok hw hcopy =>
    have hecx : (c.reg .ecx).toNat = 0x4000 - w := by
      rw [hcopy.ecx, toNat_ofNat_of_lt (by omega)]
    rcases Nat.lt_or_eq_of_le (Nat.succ_le_of_lt hw) with hlt | heq
    · obtain ⟨d, hd, hcopy'⟩ := step_copyLoop_of_lt hj hlt hcopy
      refine ⟨_, hd, .copyLoop hj hok hlt hcopy', ?_⟩
      have hecx' : (d.reg .ecx).toNat = 0x4000 - (w + 1) := by
        rw [hcopy'.ecx, toNat_ofNat_of_lt (by omega)]
      simp only [remaining, hecx, hecx']
      omega
    · obtain ⟨d, hd, hloop⟩ := step_copyLoop_of_eq hj heq hcopy
      by_cases hlast : j + 1 < 256
      · rw [if_pos hlast] at hd
        refine ⟨_, hd, .loop hlast hok hloop, ?_⟩
        simp only [remaining, hecx]
        omega
      · rw [if_neg hlast] at hd
        have hj' : j + 1 = 256 := by omega
        refine ⟨_, hd, .done (hj' ▸ hok) (hj' ▸ hloop.copied), ?_⟩
        simp only [remaining, hecx]
        omega
  | done => exact hactive.elim
  | readError => exact hactive.elim

/-- The two ways the loop is left. -/
theorem BootInv.end_cases (hentry : BootEntry L drive s₀) (h : BootInv L disk drive ok s₀ s)
    (hend : ¬ s.place.Active) :
    (s.place = .done ∧ (∀ i < 256, ok i = true) ∧
      Copied L disk s₀.cpu.mem s.cpu.mem (0x10000 * 256)) ∨
    ∃ i < 256, s.place = .readError ∧ (∀ j < i, ok j = true) ∧ ok i = false ∧
      Copied L disk s₀.cpu.mem s.cpu.mem (0x10000 * i) := by
  cases h with
  | start => exact absurd (hentry.place ▸ trivial) hend
  | loop => exact absurd trivial hend
  | copyLoop => exact absurd trivial hend
  | done hok hcopied => exact Or.inl ⟨rfl, hok, hcopied⟩
  | readError hi hok hfail hcopied => exact Or.inr ⟨_, hi, rfl, hok, hfail, hcopied⟩

/-- Where a read fails, no step leaves the states above but to hang. -/
theorem BootInv.step_of_false (hentry : BootEntry L drive s₀)
    (hdisk : ReadsDisk int13 disk sectors drive ok) (hsectors : 128 * 256 ≤ sectors) {i : ℕ}
    (hi : i < 256) (hfail : ok i = false)
    (h : BootInv L disk drive ok s₀ s) {e : Unit} (hs : step L int13 s e = some t) :
    BootInv L disk drive ok s₀ t ∨ t.place = .hang := by
  by_cases hactive : s.place.Active
  · obtain ⟨u, hu, hinv, -⟩ := h.progress hentry hdisk hsectors hactive
    obtain rfl := Option.some_inj.mp (hu.symm.trans hs)
    exact Or.inl hinv
  · rcases h.end_cases hentry hactive with ⟨-, hok, -⟩ | ⟨-, -, hplace, -⟩
    · exact absurd (hfail.symm.trans (hok i hi)) Bool.false_ne_true
    · rw [step, hplace] at hs
      obtain ⟨d, -, hd⟩ := Option.bind_eq_some_iff.mp hs
      obtain rfl := Option.some_inj.mp hd
      exact Or.inr rfl

/-- Where a read fails, the boot sector never gets to protected mode. -/
theorem place_ne_protectedMode (hentry : BootEntry L drive s₀)
    (hdisk : ReadsDisk int13 disk sectors drive ok) (hsectors : 128 * 256 ≤ sectors) {i : ℕ}
    (hi : i < 256) (hfail : ok i = false)
    {es : List Unit} (hrun : run (step L int13) s₀ es = some s) : s.place ≠ .protectedMode := by
  have hinv : BootInv L disk drive ok s₀ s ∨ s.place = .hang := by
    refine invariant_of_run (fun s => BootInv L disk drive ok s₀ s ∨ s.place = .hang)
      (fun s e t hs ht => ?_) (Or.inl .start) hrun
    rcases hs with hs | hhang
    · exact hs.step_of_false hentry hdisk hsectors hi hfail ht
    · rw [step, hhang] at ht
      obtain rfl := Option.some_inj.mp ht
      exact Or.inr hhang
  intro hplace
  rcases hinv with hinv | hhang
  · have hend : ¬ s.place.Active := by
      rw [hplace]
      exact id
    rcases hinv.end_cases hentry hend with ⟨hdone, -⟩ | ⟨-, -, herror, -⟩
    · exact absurd (hdone.symm.trans hplace) (by decide)
    · exact absurd (herror.symm.trans hplace) (by decide)
  · exact absurd (hhang.symm.trans hplace) (by decide)

/-- The boot sector gets to the end of the loop, or to a read that fails. -/
theorem exists_run_to_end (hentry : BootEntry L drive s₀)
    (hdisk : ReadsDisk int13 disk sectors drive ok) (hsectors : 128 * 256 ≤ sectors) :
    ∃ es t, run (step L int13) s₀ es = some t ∧ BootInv L disk drive ok s₀ t ∧ ¬ t.place.Active :=
  exists_run_of_variant remaining (fun s hinv hfinal => by
    obtain ⟨t, ht⟩ := hinv.progress hentry hdisk hsectors (not_not.mp hfinal)
    exact ⟨(), t, ht⟩) .start

end runs

end BootSector

open BootSector

/-- **The boot sector copies the disk.** If every read succeeds, the first 16 MB of the disk are at
4 MB when the loop is left. After a read that fails the code goes to `read_error` with the parts
before it copied, and never enters protected mode. Nothing else has changed but the memory of the
boot sector. -/
theorem boot_copiesDisk (L : BootLabels) (int13 : ℕ → Cpu → Cpu) (disk : ℕ → BitVec 8)
    (sectors : ℕ) (drive : BitVec 8) (ok : ℕ → Bool) (s₀ : BootSector)
    (hentry : BootEntry L drive s₀) (hdisk : ReadsDisk int13 disk sectors drive ok)
    (hsectors : 128 * 256 ≤ sectors) :
    ((∀ i < 256, ok i = true) → ∃ es s, run (BootSector.step L int13) s₀ es = some s ∧
      s.place = .done ∧ Copied L disk s₀.cpu.mem s.cpu.mem (0x10000 * 256)) ∧
    ∀ i < 256, (∀ j < i, ok j = true) → ok i = false →
      (∃ es s, run (BootSector.step L int13) s₀ es = some s ∧ s.place = .readError ∧
        Copied L disk s₀.cpu.mem s.cpu.mem (0x10000 * i)) ∧
      ∀ es s, run (BootSector.step L int13) s₀ es = some s → s.place ≠ .protectedMode := by
  obtain ⟨es, s, hrun, hinv, hend⟩ := exists_run_to_end hentry hdisk hsectors
  have hcases := hinv.end_cases hentry hend
  constructor
  · intro hok
    rcases hcases with ⟨hplace, -, hcopied⟩ | ⟨i, hi, -, -, hfail, -⟩
    · exact ⟨es, s, hrun, hplace, hcopied⟩
    · exact absurd (hfail.symm.trans (hok i hi)) Bool.false_ne_true
  · intro i hi hbefore hfail
    refine ⟨?_, fun es s => place_ne_protectedMode hentry hdisk hsectors hi hfail⟩
    rcases hcases with ⟨-, hok, -⟩ | ⟨i', hi', hplace, hbefore', hfail', hcopied⟩
    · exact absurd (hfail.symm.trans (hok i hi)) Bool.false_ne_true
    · -- both are the first read that fails
      have heq : i' = i := by
        rcases Nat.lt_trichotomy i' i with hlt | heq | hgt
        · exact absurd (hfail'.symm.trans (hbefore i' hlt)) Bool.false_ne_true
        · exact heq
        · exact absurd (hfail.symm.trans (hbefore' i hgt)) Bool.false_ne_true
      exact ⟨es, s, hrun, hplace, heq ▸ hcopied⟩

/-- An entry with the data at `0x7d00`, from drive `0x80`. -/
def sampleLabels : BootLabels where
  message := 0x7d00
  unrealRet := 0x7c3a
  readRet := 0x7c4a
  doneRet := 0x7c8f
  errorRet := 0x7cae
  le_message := by decide
  message_le := by decide

def sampleEntry : BootSector where
  place := .start
  cpu :=
    { reg := fun _ => 0x80
      sp := 0
      seg := fun _ => 0
      limit := fun _ => 2 ^ 16
      cr0 := 0x10
      cf := false
      mem := storeBytes (fun _ => 0) sampleLabels.message bootData }
  reads := 0

theorem bootEntry_sampleEntry : BootEntry sampleLabels 0x80 sampleEntry := by
  have hdata : sampleLabels.HoldsData sampleEntry.cpu.mem := fun i h =>
    storeBytes_of_inside (a := sampleLabels.message) (i := i) h
  constructor
  case data => exact hdata
  all_goals rfl

theorem boot_copiesDisk_sample :
    (∃ es s, run (BootSector.step sampleLabels (biosRead (BitVec.ofNat 8) fun _ => true))
        sampleEntry es = some s ∧ s.place = .done ∧
      Copied sampleLabels (BitVec.ofNat 8) sampleEntry.cpu.mem s.cpu.mem (0x10000 * 256)) ∧
    (∃ es s, run (BootSector.step sampleLabels (biosRead (BitVec.ofNat 8) fun i => i != 5))
        sampleEntry es = some s ∧ s.place = .readError ∧
      Copied sampleLabels (BitVec.ofNat 8) sampleEntry.cpu.mem s.cpu.mem (0x10000 * 5)) :=
  ⟨(boot_copiesDisk sampleLabels _ _ 0x8000 0x80 _ sampleEntry bootEntry_sampleEntry
      (readsDisk_biosRead _ _ _ _) le_rfl).1 fun _ _ => rfl,
    ((boot_copiesDisk sampleLabels _ _ 0x8000 0x80 _ sampleEntry bootEntry_sampleEntry
      (readsDisk_biosRead _ _ _ _) le_rfl).2 5 (by decide) (by decide) rfl).1⟩

end FrogOS
