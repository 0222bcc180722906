import RiscvSim.Encoding

namespace RiscvSim

open Isa Ir BitFields

namespace Decoder

theorem immOfI_raw {c : Command} (h : rawImm c = true) (w : U32) :
    immOfI c (IFormat.ofWord w) = (fieldI w).setWidth 32 := if_pos h

theorem immOfI_signed {c : Command} (h : rawImm c = false) (w : U32) :
    immOfI c (IFormat.ofWord w) = (fieldI w).signExtend 32 := by
  rw [immOfI, h]
  exact signExtend_eq (by decide) _

theorem rawImm_eq (c : Command) : rawImm c = (onlyImm c).isSome := by
  obtain ⟨c, hc⟩ := c
  cases c <;> rfl

theorem onlyImm_bound {c : Command} {k : ℤ} (hk : onlyImm c = some k) : 0 ≤ k ∧ k < 2 ^ 11 := by
  unfold onlyImm at hk
  split at hk <;> cases hk <;> decide

theorem special_only {c : Command} {k : ℤ} (hk : onlyImm c = some k) {w : U32}
    (hrd : w.extractLsb' 7 5 = 0) (hrs1 : w.extractLsb' 15 5 = 0)
    (himm : w.extractLsb' 20 12 = BitVec.ofInt 12 k) : Special c w := by
  unfold Special
  rw [hrd, hrs1, himm]
  unfold onlyImm at hk
  split at hk <;> cases hk
  all_goals
    next hc =>
      rw [hc]
      exact ⟨⟨rfl, rfl⟩, by decide⟩

theorem special_free {c : Command} (hk : onlyImm c = none) (hc : c.val ≠ .SRAI) {w : U32}
    (h7 : c.val = .SLLI ∨ c.val = .SRLI → w.extractLsb' 25 7 = 0) : Special c w := by
  unfold onlyImm at hk
  unfold Special
  split <;> first | trivial | contradiction | skip
  all_goals simp_all

theorem special_encode {c : Command} (hc : c.val ≠ .SRAI) {o : Operands} (hf : formatOf c = .I)
    (h : AdmitsI c o) : Special c (encode c o) := by
  have himm : (encode c o).extractLsb' 20 12 = BitVec.ofInt 12 o.imm := encode_I hf o
  have hrd := encode_rd c o (by simp [hf]) (by simp [hf])
  have hrs1 := encode_rs1 c o (by simp [hf]) (by simp [hf])
  unfold AdmitsI at h
  split at h
  · next k hk =>
    obtain ⟨h₁, h₂, rfl⟩ := h
    exact special_only hk (by rw [hrd, h₁]; rfl) (by rw [hrs1, h₂]; rfl) himm
  · next hk =>
    refine special_free hk hc fun hs ↦ ?_
    rw [if_pos hs] at h
    rw [show 25 = 20 + 5 by rfl, ← extractLsb'_extractLsb' (l := 12) _ (by decide), himm]
    apply BitVec.eq_of_toNat_eq
    rw [BitVec.extractLsb'_toNat, BitVec.toNat_ofInt, Nat.shiftRight_eq_div_pow]
    simp only [BitVec.ofNat_eq_ofNat, BitVec.toNat_ofNat]
    omega

theorem selects_encode {c : Command} (hc : c.val ≠ .SRAI) {o : Operands} (h : Admits c o) :
    Selects (encode c o) c where
  sz := (encode_opcode c o).1
  opcode := (encode_opcode c o).2
  funct3 := encode_funct3 c o
  funct7 hf := (encode_R hf o).2
  special := by
    by_cases hf : formatOf c = .I
    · exact special_encode hc hf (by simpa only [Admits, hf] using h)
    · exact special_of_format hf _

theorem toReg_ofReg (r : Reg) : toReg (ofReg r) = r := rfl

theorem ofReg_toReg (x : BitVec 5) : ofReg (toReg x) = x := rfl

theorem immOfI_encode {c : Command} {o : Operands} (hf : formatOf c = .I) (h : AdmitsI c o) :
    immOfI c (IFormat.ofWord (encode c o)) = BitVec.ofInt 32 o.imm := by
  have hr := rawImm_eq c
  unfold AdmitsI at h
  split at h
  · next k hk =>
    rw [hk] at hr
    have hb := onlyImm_bound hk
    rw [immOfI_raw hr, encode_I hf, h.2.2]
    apply BitVec.eq_of_toNat_eq
    rw [setWidth_toNat (by decide), BitVec.toNat_ofInt, BitVec.toNat_ofInt]
    omega
  · next hk =>
    rw [hk] at hr
    have hb : -2 ^ 11 ≤ o.imm ∧ o.imm < 2 ^ 11 := by split at h <;> omega
    rw [immOfI_signed hr, encode_I hf, signExtend_ofInt (by decide) hb.1 hb.2 (by decide)]

theorem immU_encode {c : Command} {o : Operands} (hf : formatOf c = .U) (h : Admits c o) :
    immU (UFormat.ofWord (encode c o)) = BitVec.ofInt 32 o.imm <<< 12 := by
  simp only [Admits, hf] at h
  have hu : (UFormat.ofWord (encode c o)).imm = _ := encode_U hf o
  rw [immU, hu]
  congr 1
  apply BitVec.eq_of_toNat_eq
  rw [setWidth_toNat (by decide), BitVec.toNat_ofInt, BitVec.toNat_ofInt]
  omega

theorem readAs_encode {c : Command} {o : Operands} (h : Admits c o) :
    readAs (formatOf c) c (encode c o) = instOf c o := by
  have hrd := encode_rd c o
  have hrs1 := encode_rs1 c o
  unfold instOf
  cases hf : formatOf c with
  | UNDEFINED => exact absurd hf (formatOf_ne_UNDEFINED c)
  | R =>
    rw [hf] at hrd hrs1
    simp only [readAs, RFormat.ofWord, hrd (by decide) (by decide), hrs1 (by decide) (by decide),
      (encode_R hf o).1, toReg_ofReg]
  | I =>
    simp only [Admits, hf] at h
    rw [hf] at hrd hrs1
    simp only [readAs, RFormat.ofWord, hrd (by decide) (by decide), hrs1 (by decide) (by decide),
      immOfI_encode hf h, toReg_ofReg]
  | S =>
    simp only [Admits, hf] at h
    rw [hf] at hrs1
    simp only [readAs, RFormat.ofWord, hrs1 (by decide) (by decide), (encode_S hf o).1, immS_eq,
      (encode_S hf o).2, toReg_ofReg]
    rw [signExtend_ofInt (by decide) h.1 h.2 (by decide)]
  | B =>
    simp only [Admits, hf] at h
    rw [hf] at hrs1
    simp only [readAs, RFormat.ofWord, hrs1 (by decide) (by decide), (encode_B hf o).1, immB_eq,
      (encode_B hf o).2, extract_ofInt h.1, toReg_ofReg]
    rw [signExtend_ofInt (by decide) (by omega) (by omega) (by decide)]
  | U =>
    rw [hf] at hrd
    simp only [readAs, RFormat.ofWord, hrd (by decide) (by decide), immU_encode hf h, toReg_ofReg]
  | J =>
    simp only [Admits, hf] at h
    rw [hf] at hrd
    simp only [readAs, RFormat.ofWord, hrd (by decide) (by decide), immJ_eq, encode_J hf o,
      extract_ofInt h.1, toReg_ofReg]
    rw [signExtend_ofInt (by decide) (by omega) (by omega) (by decide)]

/-- The encoding of admitted operands decodes to the command and these operands. -/
theorem decode_of_admits {c : Command} (hc : c.val ≠ .SRAI) {o : Operands} (h : Admits c o) :
    decoder_.decode (encode c o) = .ok (instOf c o) := by
  have hcmd : (instOf c o).cmd_ = c := by unfold instOf; split <;> rfl
  rw [decode_ok_iff, hcmd]
  exact ⟨selects_encode hc h, (readAs_encode h).symm⟩

theorem ofInt_toInt_immOfI (c : Command) (w : U32) :
    BitVec.ofInt 12 (immOfI c (IFormat.ofWord w)).toInt = w.extractLsb' 20 12 := by
  cases hr : rawImm c with
  | true =>
    have hlt := (fieldI w).isLt
    rw [immOfI_raw hr, BitVec.toInt_eq_toNat_of_lt (by rw [setWidth_toNat (by decide)]; omega),
      setWidth_toNat (by decide), BitVec.ofInt_natCast, BitVec.ofNat_toNat, BitVec.setWidth_eq]
    rfl
  | false =>
    rw [immOfI_signed hr, BitVec.toInt_signExtend_of_le (by decide), BitVec.ofInt_toInt]
    rfl

theorem ofInt_double {n k l : ℕ} (x : BitVec n) (hn : n ≤ 32) (h : k + l ≤ n) :
    (BitVec.ofInt (n + 1) (2 * (x.signExtend 32).toInt)).extractLsb' (1 + k) l =
      x.extractLsb' k l := by
  rw [← extractLsb'_extractLsb' (l := n) _ h, extract_ofInt (by omega),
    BitVec.toInt_signExtend_of_le hn, show 2 * x.toInt / 2 = x.toInt by omega, BitVec.ofInt_toInt]

theorem operandsOf_imm {c : Command} {f : CmdFormat} (hf : formatOf c = f) (w : U32) :
    (operandsOf (readAs f c w)).imm = match f with
      | .R => 0
      | .I => (immOfI c (IFormat.ofWord w)).toInt
      | .S => ((fieldS w).signExtend 32).toInt
      | .B => 2 * ((fieldB w).signExtend 32).toInt
      | .U => (fieldU w).toNat
      | .J | .UNDEFINED => 2 * ((fieldJ w).signExtend 32).toInt := by
  have hg : (readAs f c w).getCmdFormat = f := by rw [← hf]; unfold readAs; split <;> rfl
  rw [← immS_eq, ← immB_eq, ← immJ_eq]
  simp only [operandsOf, hg]
  cases f with
  | U =>
    have hlt := (fieldU w).isLt
    have hi : ((readAs .U c w).imm_ >>> 12).toNat = (fieldU w).toNat := by
      change (((fieldU w).setWidth 32 <<< 12) >>> 12).toNat = _
      rw [BitVec.toNat_ushiftRight, BitVec.toNat_shiftLeft, setWidth_toNat (by decide),
        Nat.shiftLeft_eq, Nat.shiftRight_eq_div_pow]
      omega
    rw [hi]
  | _ => rfl

/-- Encoding what was read from an accepted word gives the word back. -/
theorem encode_operandsOf {w : U32} {c : Command} (h : Selects w c) :
    encode c (operandsOf (readAs (formatOf c) c w)) = w := by
  have hsz : _ = 3#2 := h.sz
  have hf3 := h.funct3
  have hf7 := h.funct7
  unfold encode
  rw [← hsz, ← h.opcode]
  cases hf : formatOf c with
  | UNDEFINED => exact absurd hf (formatOf_ne_UNDEFINED c)
  | R =>
    rw [hf] at hf3 hf7
    rw [← hf3 (by decide) (by decide), ← hf7 rfl]
    change w.extractLsb' 25 7 ++ (w.extractLsb' 20 5 ++ (w.extractLsb' 15 5 ++
      (w.extractLsb' 12 3 ++ (w.extractLsb' 7 5 ++ (w.extractLsb' 2 5 ++ w.extractLsb' 0 2))))) = w
    simp (disch := decide) only [BitVec.extractLsb'_append_extractLsb'_eq_extractLsb']
    exact BitVec.extractLsb'_eq_self
  | I =>
    rw [hf] at hf3
    rw [← hf3 (by decide) (by decide), operandsOf_imm hf]
    dsimp only
    rw [ofInt_toInt_immOfI]
    change w.extractLsb' 20 12 ++ (w.extractLsb' 15 5 ++ (w.extractLsb' 12 3 ++
      (w.extractLsb' 7 5 ++ (w.extractLsb' 2 5 ++ w.extractLsb' 0 2)))) = w
    simp (disch := decide) only [BitVec.extractLsb'_append_extractLsb'_eq_extractLsb']
    exact BitVec.extractLsb'_eq_self
  | S =>
    rw [hf] at hf3
    rw [← hf3 (by decide) (by decide), operandsOf_imm hf]
    dsimp only
    rw [BitVec.toInt_signExtend_of_le (by decide), BitVec.ofInt_toInt, fieldS,
      BitVec.extractLsb'_append_eq_left, BitVec.extractLsb'_append_eq_right]
    change w.extractLsb' 25 7 ++ (w.extractLsb' 20 5 ++ (w.extractLsb' 15 5 ++
      (w.extractLsb' 12 3 ++ (w.extractLsb' 7 5 ++ (w.extractLsb' 2 5 ++ w.extractLsb' 0 2))))) = w
    simp (disch := decide) only [BitVec.extractLsb'_append_extractLsb'_eq_extractLsb']
    exact BitVec.extractLsb'_eq_self
  | B =>
    rw [hf] at hf3
    rw [← hf3 (by decide) (by decide), operandsOf_imm hf]
    dsimp only
    have h12 := ofInt_double (fieldB w) (by decide) (show 11 + 1 ≤ 12 by decide)
    have h11 := ofInt_double (fieldB w) (by decide) (show 10 + 1 ≤ 12 by decide)
    have h5 := ofInt_double (fieldB w) (by decide) (show 4 + 6 ≤ 12 by decide)
    have h1 := ofInt_double (fieldB w) (by decide) (show 0 + 4 ≤ 12 by decide)
    simp (disch := decide) only [fieldB, BitVec.extractLsb'_append_eq_of_add_le,
      BitVec.extractLsb'_append_eq_of_le, BitVec.extractLsb'_eq_self, Nat.sub_add_eq, Nat.reduceSub]
      at h12 h11 h5 h1
    rw [fieldB, h12, h11, h5, h1]
    change w.extractLsb' 31 1 ++ (w.extractLsb' 25 6 ++ (w.extractLsb' 20 5 ++
      (w.extractLsb' 15 5 ++ (w.extractLsb' 12 3 ++ (w.extractLsb' 8 4 ++ (w.extractLsb' 7 1 ++
        (w.extractLsb' 2 5 ++ w.extractLsb' 0 2))))))) = w
    simp (disch := decide) only [BitVec.extractLsb'_append_extractLsb'_eq_extractLsb']
    exact BitVec.extractLsb'_eq_self
  | U =>
    rw [operandsOf_imm hf]
    dsimp only
    rw [BitVec.ofInt_natCast, BitVec.ofNat_toNat, BitVec.setWidth_eq]
    change w.extractLsb' 12 20 ++ (w.extractLsb' 7 5 ++ (w.extractLsb' 2 5 ++
      w.extractLsb' 0 2)) = w
    simp (disch := decide) only [BitVec.extractLsb'_append_extractLsb'_eq_extractLsb']
    exact BitVec.extractLsb'_eq_self
  | J =>
    rw [operandsOf_imm hf]
    dsimp only
    have h20 := ofInt_double (fieldJ w) (by decide) (show 19 + 1 ≤ 20 by decide)
    have h12 := ofInt_double (fieldJ w) (by decide) (show 11 + 8 ≤ 20 by decide)
    have h11 := ofInt_double (fieldJ w) (by decide) (show 10 + 1 ≤ 20 by decide)
    have h1 := ofInt_double (fieldJ w) (by decide) (show 0 + 10 ≤ 20 by decide)
    simp (disch := decide) only [fieldJ, BitVec.extractLsb'_append_eq_of_add_le,
      BitVec.extractLsb'_append_eq_of_le, BitVec.extractLsb'_eq_self, Nat.sub_add_eq, Nat.reduceSub]
      at h20 h12 h11 h1
    rw [fieldJ, h20, h12, h11, h1]
    change w.extractLsb' 31 1 ++ (w.extractLsb' 21 10 ++ (w.extractLsb' 20 1 ++
      (w.extractLsb' 12 8 ++ (w.extractLsb' 7 5 ++ (w.extractLsb' 2 5 ++ w.extractLsb' 0 2))))) = w
    simp (disch := decide) only [BitVec.extractLsb'_append_extractLsb'_eq_extractLsb']
    exact BitVec.extractLsb'_eq_self

theorem encode_of_decode {w : U32} {inst : Inst} (h : decoder_.decode w = .ok inst) :
    encode inst.cmd_ (operandsOf inst) = w := by
  obtain ⟨hs, hi⟩ := (decode_ok_iff w inst).mp h
  have he := encode_operandsOf hs
  rwa [← hi] at he

/-- For every command but SRAI, decoding inverts encoding on the admitted operands, and
encoding inverts decoding on the accepted words, which makes decoding injective on them. -/
theorem decode_encode (c : Command) (hc : c.val ≠ .SRAI) :
    (∀ o, Admits c o → decoder_.decode (encode c o) = .ok (instOf c o)) ∧
      (∀ w inst, decoder_.decode w = .ok inst → inst.cmd_ = c → encode c (operandsOf inst) = w) ∧
      ∀ w w' inst, decoder_.decode w = .ok inst → decoder_.decode w' = .ok inst →
        inst.cmd_ = c → w = w' := by
  refine ⟨fun o ↦ decode_of_admits hc, ?_, ?_⟩
  · rintro w inst h rfl
    exact encode_of_decode h
  · rintro w w' inst h h' rfl
    rw [← encode_of_decode h, encode_of_decode h']

theorem decode_encode_BEQ : (⟨.BEQ, nofun⟩ : Command).val ≠ .SRAI ∧
    decoder_.decode (encode ⟨.BEQ, nofun⟩ ⟨0, 1, 2, -4⟩) = .ok (genB ⟨.BEQ, nofun⟩ (-2) 1 2) := by
  refine ⟨by decide, ?_⟩
  exact (decode_encode ⟨.BEQ, nofun⟩ (by decide)).1 ⟨0, 1, 2, -4⟩
    (show (-4 : ℤ) % 2 = 0 ∧ (-4096 : ℤ) ≤ -4 ∧ (-4 : ℤ) ≤ 4094 by decide)

end Decoder

end RiscvSim
