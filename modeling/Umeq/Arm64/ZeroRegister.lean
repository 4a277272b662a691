import Umeq.Arm64.Exclusive

/-! # Register 31 in the dirty helpers of `arm64_helpers.c`

    A dirty helper is given the instruction and goes to the registers by itself. Register
    31 of the array is the stack pointer: in the fields of CRC32, LDXP and STXP that are
    looked at here, 31 names the zero register. LDXP checks its fields, STXP refuses two of
    its three, and CRC32 checks none.
-/

namespace Umeq.Arm64

open Bytes

/-! ## CRC32 -/

/-- `crc32_table`. -/
def crc32_table : List Nat :=
  [
    0x00000000, 0x77073096, 0xee0e612c, 0x990951ba, 0x076dc419, 0x706af48f, 0xe963a535,
    0x9e6495a3, 0x0edb8832, 0x79dcb8a4, 0xe0d5e91e, 0x97d2d988, 0x09b64c2b, 0x7eb17cbd,
    0xe7b82d07, 0x90bf1d91, 0x1db71064, 0x6ab020f2, 0xf3b97148, 0x84be41de, 0x1adad47d,
    0x6ddde4eb, 0xf4d4b551, 0x83d385c7, 0x136c9856, 0x646ba8c0, 0xfd62f97a, 0x8a65c9ec,
    0x14015c4f, 0x63066cd9, 0xfa0f3d63, 0x8d080df5, 0x3b6e20c8, 0x4c69105e, 0xd56041e4,
    0xa2677172, 0x3c03e4d1, 0x4b04d447, 0xd20d85fd, 0xa50ab56b, 0x35b5a8fa, 0x42b2986c,
    0xdbbbc9d6, 0xacbcf940, 0x32d86ce3, 0x45df5c75, 0xdcd60dcf, 0xabd13d59, 0x26d930ac,
    0x51de003a, 0xc8d75180, 0xbfd06116, 0x21b4f4b5, 0x56b3c423, 0xcfba9599, 0xb8bda50f,
    0x2802b89e, 0x5f058808, 0xc60cd9b2, 0xb10be924, 0x2f6f7c87, 0x58684c11, 0xc1611dab,
    0xb6662d3d, 0x76dc4190, 0x01db7106, 0x98d220bc, 0xefd5102a, 0x71b18589, 0x06b6b51f,
    0x9fbfe4a5, 0xe8b8d433, 0x7807c9a2, 0x0f00f934, 0x9609a88e, 0xe10e9818, 0x7f6a0dbb,
    0x086d3d2d, 0x91646c97, 0xe6635c01, 0x6b6b51f4, 0x1c6c6162, 0x856530d8, 0xf262004e,
    0x6c0695ed, 0x1b01a57b, 0x8208f4c1, 0xf50fc457, 0x65b0d9c6, 0x12b7e950, 0x8bbeb8ea,
    0xfcb9887c, 0x62dd1ddf, 0x15da2d49, 0x8cd37cf3, 0xfbd44c65, 0x4db26158, 0x3ab551ce,
    0xa3bc0074, 0xd4bb30e2, 0x4adfa541, 0x3dd895d7, 0xa4d1c46d, 0xd3d6f4fb, 0x4369e96a,
    0x346ed9fc, 0xad678846, 0xda60b8d0, 0x44042d73, 0x33031de5, 0xaa0a4c5f, 0xdd0d7cc9,
    0x5005713c, 0x270241aa, 0xbe0b1010, 0xc90c2086, 0x5768b525, 0x206f85b3, 0xb966d409,
    0xce61e49f, 0x5edef90e, 0x29d9c998, 0xb0d09822, 0xc7d7a8b4, 0x59b33d17, 0x2eb40d81,
    0xb7bd5c3b, 0xc0ba6cad, 0xedb88320, 0x9abfb3b6, 0x03b6e20c, 0x74b1d29a, 0xead54739,
    0x9dd277af, 0x04db2615, 0x73dc1683, 0xe3630b12, 0x94643b84, 0x0d6d6a3e, 0x7a6a5aa8,
    0xe40ecf0b, 0x9309ff9d, 0x0a00ae27, 0x7d079eb1, 0xf00f9344, 0x8708a3d2, 0x1e01f268,
    0x6906c2fe, 0xf762575d, 0x806567cb, 0x196c3671, 0x6e6b06e7, 0xfed41b76, 0x89d32be0,
    0x10da7a5a, 0x67dd4acc, 0xf9b9df6f, 0x8ebeeff9, 0x17b7be43, 0x60b08ed5, 0xd6d6a3e8,
    0xa1d1937e, 0x38d8c2c4, 0x4fdff252, 0xd1bb67f1, 0xa6bc5767, 0x3fb506dd, 0x48b2364b,
    0xd80d2bda, 0xaf0a1b4c, 0x36034af6, 0x41047a60, 0xdf60efc3, 0xa867df55, 0x316e8eef,
    0x4669be79, 0xcb61b38c, 0xbc66831a, 0x256fd2a0, 0x5268e236, 0xcc0c7795, 0xbb0b4703,
    0x220216b9, 0x5505262f, 0xc5ba3bbe, 0xb2bd0b28, 0x2bb45a92, 0x5cb36a04, 0xc2d7ffa7,
    0xb5d0cf31, 0x2cd99e8b, 0x5bdeae1d, 0x9b64c2b0, 0xec63f226, 0x756aa39c, 0x026d930a,
    0x9c0906a9, 0xeb0e363f, 0x72076785, 0x05005713, 0x95bf4a82, 0xe2b87a14, 0x7bb12bae,
    0x0cb61b38, 0x92d28e9b, 0xe5d5be0d, 0x7cdcefb7, 0x0bdbdf21, 0x86d3d2d4, 0xf1d4e242,
    0x68ddb3f8, 0x1fda836e, 0x81be16cd, 0xf6b9265b, 0x6fb077e1, 0x18b74777, 0x88085ae6,
    0xff0f6a70, 0x66063bca, 0x11010b5c, 0x8f659eff, 0xf862ae69, 0x616bffd3, 0x166ccf45,
    0xa00ae278, 0xd70dd2ee, 0x4e048354, 0x3903b3c2, 0xa7672661, 0xd06016f7, 0x4969474d,
    0x3e6e77db, 0xaed16a4a, 0xd9d65adc, 0x40df0b66, 0x37d83bf0, 0xa9bcae53, 0xdebb9ec5,
    0x47b2cf7f, 0x30b5ffe9, 0xbdbdf21c, 0xcabac28a, 0x53b39330, 0x24b4a3a6, 0xbad03605,
    0xcdd70693, 0x54de5729, 0x23d967bf, 0xb3667a2e, 0xc4614ab8, 0x5d681b02, 0x2a6f2b94,
    0xb40bbe37, 0xc30c8ea1, 0x5a05df1b, 0x2d02ef8d]

/-- `crc32c_table`. -/
def crc32c_table : List Nat :=
  [
    0x00000000, 0xf26b8303, 0xe13b70f7, 0x1350f3f4, 0xc79a971f, 0x35f1141c, 0x26a1e7e8,
    0xd4ca64eb, 0x8ad958cf, 0x78b2dbcc, 0x6be22838, 0x9989ab3b, 0x4d43cfd0, 0xbf284cd3,
    0xac78bf27, 0x5e133c24, 0x105ec76f, 0xe235446c, 0xf165b798, 0x030e349b, 0xd7c45070,
    0x25afd373, 0x36ff2087, 0xc494a384, 0x9a879fa0, 0x68ec1ca3, 0x7bbcef57, 0x89d76c54,
    0x5d1d08bf, 0xaf768bbc, 0xbc267848, 0x4e4dfb4b, 0x20bd8ede, 0xd2d60ddd, 0xc186fe29,
    0x33ed7d2a, 0xe72719c1, 0x154c9ac2, 0x061c6936, 0xf477ea35, 0xaa64d611, 0x580f5512,
    0x4b5fa6e6, 0xb93425e5, 0x6dfe410e, 0x9f95c20d, 0x8cc531f9, 0x7eaeb2fa, 0x30e349b1,
    0xc288cab2, 0xd1d83946, 0x23b3ba45, 0xf779deae, 0x05125dad, 0x1642ae59, 0xe4292d5a,
    0xba3a117e, 0x4851927d, 0x5b016189, 0xa96ae28a, 0x7da08661, 0x8fcb0562, 0x9c9bf696,
    0x6ef07595, 0x417b1dbc, 0xb3109ebf, 0xa0406d4b, 0x522bee48, 0x86e18aa3, 0x748a09a0,
    0x67dafa54, 0x95b17957, 0xcba24573, 0x39c9c670, 0x2a993584, 0xd8f2b687, 0x0c38d26c,
    0xfe53516f, 0xed03a29b, 0x1f682198, 0x5125dad3, 0xa34e59d0, 0xb01eaa24, 0x42752927,
    0x96bf4dcc, 0x64d4cecf, 0x77843d3b, 0x85efbe38, 0xdbfc821c, 0x2997011f, 0x3ac7f2eb,
    0xc8ac71e8, 0x1c661503, 0xee0d9600, 0xfd5d65f4, 0x0f36e6f7, 0x61c69362, 0x93ad1061,
    0x80fde395, 0x72966096, 0xa65c047d, 0x5437877e, 0x4767748a, 0xb50cf789, 0xeb1fcbad,
    0x197448ae, 0x0a24bb5a, 0xf84f3859, 0x2c855cb2, 0xdeeedfb1, 0xcdbe2c45, 0x3fd5af46,
    0x7198540d, 0x83f3d70e, 0x90a324fa, 0x62c8a7f9, 0xb602c312, 0x44694011, 0x5739b3e5,
    0xa55230e6, 0xfb410cc2, 0x092a8fc1, 0x1a7a7c35, 0xe811ff36, 0x3cdb9bdd, 0xceb018de,
    0xdde0eb2a, 0x2f8b6829, 0x82f63b78, 0x709db87b, 0x63cd4b8f, 0x91a6c88c, 0x456cac67,
    0xb7072f64, 0xa457dc90, 0x563c5f93, 0x082f63b7, 0xfa44e0b4, 0xe9141340, 0x1b7f9043,
    0xcfb5f4a8, 0x3dde77ab, 0x2e8e845f, 0xdce5075c, 0x92a8fc17, 0x60c37f14, 0x73938ce0,
    0x81f80fe3, 0x55326b08, 0xa759e80b, 0xb4091bff, 0x466298fc, 0x1871a4d8, 0xea1a27db,
    0xf94ad42f, 0x0b21572c, 0xdfeb33c7, 0x2d80b0c4, 0x3ed04330, 0xccbbc033, 0xa24bb5a6,
    0x502036a5, 0x4370c551, 0xb11b4652, 0x65d122b9, 0x97baa1ba, 0x84ea524e, 0x7681d14d,
    0x2892ed69, 0xdaf96e6a, 0xc9a99d9e, 0x3bc21e9d, 0xef087a76, 0x1d63f975, 0x0e330a81,
    0xfc588982, 0xb21572c9, 0x407ef1ca, 0x532e023e, 0xa145813d, 0x758fe5d6, 0x87e466d5,
    0x94b49521, 0x66df1622, 0x38cc2a06, 0xcaa7a905, 0xd9f75af1, 0x2b9cd9f2, 0xff56bd19,
    0x0d3d3e1a, 0x1e6dcdee, 0xec064eed, 0xc38d26c4, 0x31e6a5c7, 0x22b65633, 0xd0ddd530,
    0x0417b1db, 0xf67c32d8, 0xe52cc12c, 0x1747422f, 0x49547e0b, 0xbb3ffd08, 0xa86f0efc,
    0x5a048dff, 0x8ecee914, 0x7ca56a17, 0x6ff599e3, 0x9d9e1ae0, 0xd3d3e1ab, 0x21b862a8,
    0x32e8915c, 0xc083125f, 0x144976b4, 0xe622f5b7, 0xf5720643, 0x07198540, 0x590ab964,
    0xab613a67, 0xb831c993, 0x4a5a4a90, 0x9e902e7b, 0x6cfbad78, 0x7fab5e8c, 0x8dc0dd8f,
    0xe330a81a, 0x115b2b19, 0x020bd8ed, 0xf0605bee, 0x24aa3f05, 0xd6c1bc06, 0xc5914ff2,
    0x37faccf1, 0x69e9f0d5, 0x9b8273d6, 0x88d28022, 0x7ab90321, 0xae7367ca, 0x5c18e4c9,
    0x4f48173d, 0xbd23943e, 0xf36e6f75, 0x0105ec76, 0x12551f82, 0xe03e9c81, 0x34f4f86a,
    0xc69f7b69, 0xd5cf889d, 0x27a40b9e, 0x79b737ba, 0x8bdcb4b9, 0x988c474d, 0x6ae7c44e,
    0xbe2da0a5, 0x4c4623a6, 0x5f16d052, 0xad7d5351]

/-- `crc32` and `crc32c`, with their table and with the bytes that are left as a number. -/
def crc32_with (table : List Nat) (crc buf : BitVec 64) : Nat → BitVec 64
  | 0 => crc
  | len + 1 =>
    let entry := table.getD ((crc ^^^ buf) &&& 0xff#64).toNat 0
    crc32_with table (BitVec.ofNat 64 entry ^^^ (crc >>> 8)) (buf >>> 8) len

def crc32 : BitVec 64 → BitVec 64 → Nat → BitVec 64 := crc32_with crc32_table

def crc32c : BitVec 64 → BitVec 64 → Nat → BitVec 64 := crc32_with crc32c_table

section helper

variable (c : arm64_target) (insn : BitVec 32)

def crc32_rd : Fin 32 := (insn.extractLsb' 0 5).toFin
def crc32_rn : Fin 32 := (insn.extractLsb' 5 5).toFin
def crc32_rm : Fin 32 := (insn.extractLsb' 16 5).toFin
def crc32_sz : Nat := (insn.extractLsb' 10 2).toNat

/-- The masks of the sizes. -/
def crc32_mask (sz : Nat) : BitVec 64 :=
  [0xff#64, 0xffff#64, 0xffffffff#64, BitVec.allOnes 64].getD sz 0

/-- The two operands of `arm64_hlp_dirty_crc32`. -/
def crc32_acc : BitVec 64 := c.r (crc32_rn insn) &&& 0xffffffff#64

def crc32_val : BitVec 64 := c.r (crc32_rm insn) &&& crc32_mask (crc32_sz insn)

def arm64_hlp_dirty_crc32 : arm64_target :=
  let is_crc32c := insn.getLsbD 12
  let len := 1 <<< crc32_sz insn
  let result :=
    if is_crc32c then crc32c (crc32_acc c insn) (crc32_val c insn) len
    else crc32 (crc32_acc c insn) (crc32_val c insn) len
  { c with r := Function.update c.r (crc32_rd insn) result }

end helper

/-! ## What register 31 is to be -/

/-- CRC32 has zero operands where a field is 31, and leaves the registers alone where the
    destination is. -/
structure CrcZeroRegister (insn : BitVec 32) (c : arm64_target) : Prop where
  acc : crc32_rn insn = 31 → crc32_acc c insn = 0
  val : crc32_rm insn = 31 → crc32_val c insn = 0
  rd : crc32_rd insn = 31 → (arm64_hlp_dirty_crc32 c insn).r = c.r

/-! ## The values of CRC32 -/

theorem crc32_table_lt : ∀ x ∈ crc32_table, x < 2 ^ 32 := by
  decide +kernel

theorem crc32c_table_lt : ∀ x ∈ crc32c_table, x < 2 ^ 32 := by
  decide +kernel

/-- A checksum is a 32-bit word. -/
theorem crc32_with_lt {table : List Nat} (htable : ∀ x ∈ table, x < 2 ^ 32) (len : Nat)
    {crc : BitVec 64} (hcrc : crc.toNat < 2 ^ 32) (buf : BitVec 64) :
    (crc32_with table crc buf len).toNat < 2 ^ 32 := by
  induction len generalizing crc buf with
  | zero => exact hcrc
  | succ len ih =>
    unfold crc32_with
    apply ih
    have hentry : table.getD ((crc ^^^ buf) &&& 0xff#64).toNat 0 < 2 ^ 32 := by
      rw [List.getD_eq_getElem?_getD]
      cases hget : table[((crc ^^^ buf) &&& 0xff#64).toNat]? with
      | none => decide
      | some x => exact htable x (List.mem_of_getElem? hget)
    rw [BitVec.toNat_xor, BitVec.toNat_ushiftRight, BitVec.toNat_ofNat]
    apply Nat.xor_lt_two_pow
    · omega
    · exact lt_of_le_of_lt (Nat.shiftRight_le _ _) hcrc

theorem crc32_acc_lt (c : arm64_target) (insn : BitVec 32) : (crc32_acc c insn).toNat < 2 ^ 32 := by
  unfold crc32_acc
  rw [BitVec.toNat_and]
  exact lt_of_le_of_lt Nat.and_le_right (by decide)

/-- What is left in the destination is a 32-bit word. -/
theorem crc32_result_lt (c : arm64_target) (insn : BitVec 32) :
    ((arm64_hlp_dirty_crc32 c insn).r (crc32_rd insn)).toNat < 2 ^ 32 := by
  unfold arm64_hlp_dirty_crc32
  simp only [Function.update_self]
  split_ifs
  · exact crc32_with_lt crc32c_table_lt _ (crc32_acc_lt c insn) _
  · exact crc32_with_lt crc32_table_lt _ (crc32_acc_lt c insn) _

/-- No field of CRC32 may be 31. -/
theorem crc_zero_register_iff (insn : BitVec 32) : (∀ c, CrcZeroRegister insn c) ↔
    crc32_rn insn ≠ 31 ∧ crc32_rm insn ≠ 31 ∧ crc32_rd insn ≠ 31 := by
  constructor
  · intro h
    -- every register is full of ones
    let c : arm64_target := ⟨fun _ => BitVec.allOnes 64, 0⟩
    refine ⟨?_, ?_, ?_⟩
    · intro hrn
      exact absurd ((h c).acc hrn) (by simp only [crc32_acc, c]; decide)
    · intro hrm
      have hval := (h c).val hrm
      have hsz : crc32_sz insn < 4 := (insn.extractLsb' 10 2).isLt
      simp only [crc32_val, c, BitVec.allOnes_and] at hval
      obtain h0 | h1 | h2 | h3 : crc32_sz insn = 0 ∨ crc32_sz insn = 1 ∨ crc32_sz insn = 2 ∨
        crc32_sz insn = 3 := by omega
      · rw [h0] at hval
        exact absurd hval (by decide)
      · rw [h1] at hval
        exact absurd hval (by decide)
      · rw [h2] at hval
        exact absurd hval (by decide)
      · rw [h3] at hval
        exact absurd hval (by decide)
    · intro hrd
      have hlt := crc32_result_lt c insn
      rw [(h c).rd hrd] at hlt
      exact absurd hlt (by simp only [c]; decide)
  · rintro ⟨hrn, hrm, hrd⟩ c
    exact ⟨fun h => absurd h hrn, fun h => absurd h hrm, fun h => absurd h hrd⟩

/-! ## The exclusive pairs -/

section pairs

variable {s : monitor_state} {ws : List foreign}

/-- The writes of other threads leave the registers and the helper in progress. -/
theorem writes_done (ws : List foreign) (s : monitor_state) :
    ∃ s', ws.foldlM (fun s w => access.exec s (.write w)) s = some s' ∧ s'.context = s.context ∧
      s'.pending = s.pending.map fun p => ws.foldl (fun p w => p.note w) p := by
  induction ws generalizing s with
  | nil => exact ⟨s, rfl, rfl, by simp⟩
  | cons w ws ih =>
    obtain ⟨s', hs', hcontext, hpending⟩ := ih
      { s with mem := s.mem.write w.1 w.2, pending := s.pending.map (pending.note w) }
    refine ⟨s', hs', hcontext, ?_⟩
    rw [hpending]
    simp [Option.map_map, Function.comp_def]

theorem note_ldxp (ws : List foreign) (address : BitVec 64) (rt rt2 : Fin 32) (low : Nat) :
    ws.foldl (fun p w => pending.note w p) (.ldxp address rt rt2 low) = .ldxp address rt rt2 low := by
  induction ws with
  | nil => rfl
  | cons w ws ih => exact ih

theorem note_stxp (ws : List foreign) (address : BitVec 64) (rs rt rt2 : Fin 32) (a : attempt) :
    ∃ a', ws.foldl (fun p w => pending.note w p) (.stxp address rs rt rt2 a)
      = .stxp address rs rt rt2 a' := by
  induction ws generalizing a with
  | nil => exact ⟨a, rfl⟩
  | cons w ws ih => exact ih _

/-- A write to a register leaves the others, and register 31 always. -/
theorem write_x_other (c : arm64_target) {r i : Fin 32} (v : BitVec 64) (h : i ≠ r ∨ i = 31) :
    (c.write_x r v).r i = c.r i := by
  unfold arm64_target.write_x
  split_ifs with h31
  · rfl
  · have hne : i ≠ r := by
      rcases h with h | h
      · exact h
      · rw [h]
        exact Ne.symm h31
    exact Function.update_of_ne hne _ _

/-- LDXP checks both of its fields. -/
theorem ldxp_zero_register {size : Fin 4} (hsize : size = 2 ∨ size = 3) (rn rt rt2 : Fin 32)
    (ws : List foreign) (s : monitor_state) : ZeroRegister (.ldxp size rn rt rt2) ws s := by
  have hother : ∀ (c : arm64_target) v v' r, r ∉ [rt, rt2] ∨ r = 31 →
      ((c.write_x rt v).write_x rt2 v').r r = c.r r := by
    intro c v v' r hr
    have hne : (r ≠ rt2 ∨ r = 31) ∧ (r ≠ rt ∨ r = 31) := by
      simp only [List.mem_cons, List.not_mem_nil, or_false, not_or] at hr
      tauto
    rw [write_x_other _ _ hne.1, write_x_other _ _ hne.2]
  unfold ZeroRegister exclusive.finish exclusive.destinations
  rcases hsize with rfl | rfl
  · refine ⟨_, rfl, ?_⟩
    intro r hr
    exact hother _ _ _ r hr
  · -- the second word is loaded after the writes of the others
    obtain ⟨s₁, hs₁, hcontext, hpending⟩ := writes_done ws { s with
      pending := some (.ldxp (s.context.r rn) rt rt2 (s.mem.load (s.context.r rn).toNat 8)) }
    simp only [Option.map_some, note_ldxp] at hpending
    refine ⟨ldxp_high s₁ (s.context.r rn) rt rt2 (s.mem.load (s.context.r rn).toNat 8), ?_, ?_⟩
    · simp only [exclusive.exec, arm64_hlp_ldxp_dirty, if_true, Option.isNone_some,
        Bool.false_eq_true, if_false, hs₁, Option.bind_some]
      simp only [access.exec, hpending]
    · intro r hr
      refine (hother _ _ _ r hr).trans ?_
      rw [hcontext]

theorem store_word_status (s : monitor_state) (c : cell) (value : Nat) (rs : Fin 32) :
    (store_word s c value (set_status rs)).pending = none ∧
      ∃ ok, (store_word s c value (set_status rs)).context.r
        = Function.update s.context.r rs (status ok) := by
  unfold store_word
  generalize compare_and_swap s.mem c s.context.exclusive_value.toNat value = swap
  exact ⟨rfl, swap.2, rfl⟩

theorem stxp_high_status (s : monitor_state) (address : BitVec 64) (rs rt rt2 : Fin 32)
    (a : attempt) : ∃ ok, (stxp_high s address rs rt rt2 a).context.r
      = Function.update s.context.r rs (status ok) := by
  refine ⟨(compare_and_swap s.mem ⟨(address + 8).toNat, 8⟩
    (s.context.exclusive_value.toNat / 2 ^ 64) (s.context.r rt2).toNat).2, ?_⟩
  simp only [stxp_high, monitor_state.store_done, set_status]
  -- the remembered value is no register
  split_ifs <;> rfl

/-- The first swap fails, or the second one is left. -/
theorem stxp_low_status (s : monitor_state) (address : BitVec 64) (rs rt rt2 : Fin 32) :
    ((stxp_low s address rs rt rt2).pending = none ∧
        (stxp_low s address rs rt rt2).context.r = Function.update s.context.r rs (status false)) ∨
      ∃ a, (stxp_low s address rs rt rt2).pending = some (.stxp address rs rt rt2 a) ∧
        (stxp_low s address rs rt rt2).context = s.context := by
  unfold stxp_low
  generalize compare_and_swap s.mem _ _ _ = swap
  obtain ⟨m, ok⟩ := swap
  cases ok
  · exact Or.inl ⟨rfl, rfl⟩
  · exact Or.inr ⟨_, rfl, rfl⟩

/-- A store ends with its status in `rs`, and the other registers as they were. -/
theorem stxp_finish {size : Fin 4} (hsize : size = 2 ∨ size = 3) (rs rn : Fin 32) {rt rt2 : Fin 32}
    (hrt : rt ≠ 31) (hrt2 : rt2 ≠ 31) (ws : List foreign) (s : monitor_state) :
    ∃ s' ok, (exclusive.stxp size rs rn rt rt2).finish ws s = some s' ∧
      s'.context.r = Function.update s.context.r rs (status ok) := by
  have hsources : ¬ (rt = 31 ∨ rt2 = 31) := fun h => h.elim hrt hrt2
  unfold exclusive.finish
  simp only [exclusive.exec, arm64_hlp_stxp_dirty, if_neg hsources]
  rcases hsize with rfl | rfl
  · obtain ⟨hpending, ok, hr⟩ := store_word_status s ⟨(s.context.r rn).toNat, 8⟩
      ((s.context.r rt2).toNat % 2 ^ 32 * 2 ^ 32 + (s.context.r rt).toNat % 2 ^ 32) rs
    rw [if_neg (by decide), if_pos rfl]
    refine ⟨_, ok, ?_, hr⟩
    dsimp only
    rw [hpending]
    rfl
  · rw [if_pos rfl]
    dsimp only
    rcases stxp_low_status s (s.context.r rn) rs rt rt2 with ⟨hpending, hr⟩ | ⟨a, hpending, hlow⟩
    · refine ⟨_, false, ?_, hr⟩
      rw [hpending]
      rfl
    · -- the second swap comes after the writes of the others
      obtain ⟨s₁, hs₁, hcontext, hpending₁⟩ := writes_done ws (stxp_low s (s.context.r rn) rs rt rt2)
      obtain ⟨a', ha'⟩ := note_stxp ws (s.context.r rn) rs rt rt2 a
      rw [hpending, Option.map_some, ha'] at hpending₁
      obtain ⟨ok, hr⟩ := stxp_high_status s₁ (s.context.r rn) rs rt rt2 a'
      refine ⟨_, ok, ?_, hr.trans (by rw [hcontext, hlow])⟩
      rw [hpending, if_neg (by simp), hs₁]
      simp only [Option.bind_some, access.exec, hpending₁]

/-- STXP refuses 31 for its sources, and writes its status to register 31. -/
theorem stxp_zero_register_iff {size : Fin 4} (hsize : size = 2 ∨ size = 3) (rs rn rt rt2 : Fin 32) :
    (∀ ws s, ZeroRegister (.stxp size rs rn rt rt2) ws s) ↔ rt ≠ 31 ∧ rt2 ≠ 31 ∧ rs ≠ 31 := by
  constructor
  · intro h
    -- a stack pointer that is no status
    let s : monitor_state := ⟨fun _ => 0, ⟨fun _ => 5, 0⟩, none, none, false, []⟩
    obtain ⟨s', hs', hkept⟩ := h [] s
    have hsources : ¬ (rt = 31 ∨ rt2 = 31) := by
      intro hsource
      simp [exclusive.finish, exclusive.exec, arm64_hlp_stxp_dirty, hsource] at hs'
    have hrt : rt ≠ 31 := fun heq => hsources (Or.inl heq)
    have hrt2 : rt2 ≠ 31 := fun heq => hsources (Or.inr heq)
    refine ⟨hrt, hrt2, ?_⟩
    rintro rfl
    obtain ⟨s'', ok, hs'', hr⟩ := stxp_finish hsize 31 rn hrt hrt2 [] s
    rw [hs'] at hs''
    cases hs''
    have h31 := hkept 31 (Or.inr rfl)
    rw [hr, Function.update_self] at h31
    cases ok <;> exact absurd h31 (by decide)
  · rintro ⟨hrt, hrt2, hrs⟩ ws s
    obtain ⟨s', ok, hs', hr⟩ := stxp_finish hsize rs rn hrt hrt2 ws s
    refine ⟨s', hs', ?_⟩
    intro r hkeep
    have hne : r ≠ rs := by
      rcases hkeep with hkeep | rfl
      · exact fun heq => hkeep (heq ▸ List.mem_cons_self)
      · exact Ne.symm hrs
    rw [hr, Function.update_of_ne hne]

end pairs

/-- Register 31 in the dirty helpers: CRC32 takes it for the stack pointer in every place, STXP
    aborts on it as a source and takes it for the stack pointer as its status, and LDXP has it for
    the zero register. -/
theorem register_31_is_zero (insn : BitVec 32) (size : Fin 4) (rs rn rt rt2 : Fin 32) :
    ((∀ c, CrcZeroRegister insn c) ↔
      crc32_rn insn ≠ 31 ∧ crc32_rm insn ≠ 31 ∧ crc32_rd insn ≠ 31) ∧
    (size = 2 ∨ size = 3 →
      (∀ ws s, ZeroRegister (.ldxp size rn rt rt2) ws s) ∧
      ((∀ ws s, ZeroRegister (.stxp size rs rn rt rt2) ws s) ↔ rt ≠ 31 ∧ rt2 ≠ 31 ∧ rs ≠ 31)) :=
  ⟨crc_zero_register_iff insn, fun hsize =>
    ⟨ldxp_zero_register hsize rn rt rt2, stxp_zero_register_iff hsize rs rn rt rt2⟩⟩

/-- CRC32B w0, w1, w2. -/
theorem register_31_is_zero_crc32b : ∀ c, CrcZeroRegister 0x1ac24020#32 c :=
  (register_31_is_zero 0x1ac24020#32 2 0 0 0 0).1.mpr (by decide)

/-- CRC32B wzr, w1, w2 with 1 everywhere leaves 0 in the stack pointer. -/
theorem crc32_writes_stack_pointer :
    crc32_rd 0x1ac2403f#32 = 31 ∧
      (arm64_hlp_dirty_crc32 ⟨fun _ => 1, 0⟩ 0x1ac2403f#32).r 31 = 0 ∧
      ¬ CrcZeroRegister 0x1ac2403f#32 ⟨fun _ => 1, 0⟩ := by
  have hr : (arm64_hlp_dirty_crc32 ⟨fun _ => 1, 0⟩ 0x1ac2403f#32).r 31 = 0 := by decide +kernel
  refine ⟨by decide, hr, ?_⟩
  intro h
  rw [h.rd (by decide)] at hr
  exact absurd hr (by decide)

end Umeq.Arm64
