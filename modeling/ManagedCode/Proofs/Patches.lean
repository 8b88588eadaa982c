import ManagedCode.Proofs.Readers

/-!
# Cached calls in the code

A call site that was resolved is overwritten by a cached call of the same length. `Code.Patched c₀ c sites` says that
`c` is the declared code `c₀` with a cached call of site `i` at the `i`th of the offsets `sites`, and with nothing else
changed. An instruction that is no such site therefore reads as it was declared, and a site reads as the cached call of
its own number.
-/

namespace ManagedCode

namespace Code

variable {c c₀ : Code} {pc next : Nat} {op : Opcode}

/-! ## Writing bytes -/

theorem size_write : ∀ (bs : List UInt8) (c : Code) (pc : Nat), (c.write pc bs).size = c.size
  | [], _, _ => rfl
  | b :: bs, c, pc => by
    rw [write, size_write bs]
    exact Array.size_setIfInBounds

/-- A write leaves the bytes around it alone. -/
theorem getElem?_write_outside : ∀ (bs : List UInt8) (c : Code) (pc k : Nat), k < pc ∨ pc + bs.length ≤ k →
    (c.write pc bs).bytes[k]? = c.bytes[k]?
  | [], _, _, _, _ => rfl
  | b :: bs, c, pc, k, h => by
    rw [List.length_cons] at h
    rw [write, getElem?_write_outside bs _ (pc + 1) k (by omega), Array.getElem?_setIfInBounds_ne (by omega)]

/-- A write that fits puts its bytes in place. -/
theorem getElem?_write_inside : ∀ (bs : List UInt8) (c : Code) (pc j : Nat), pc + bs.length ≤ c.size → j < bs.length →
    (c.write pc bs).bytes[pc + j]? = bs[j]?
  | [], _, _, _, _, hj => absurd hj (Nat.not_lt_zero _)
  | b :: bs, c, pc, 0, h, _ => by
    rw [List.length_cons] at h
    show (c.write pc (b :: bs)).bytes[pc]? = some b
    rw [write, getElem?_write_outside bs _ (pc + 1) pc (by omega)]
    exact Array.getElem?_setIfInBounds_self_of_lt (show pc < c.bytes.size from by unfold size at h; omega)
  | b :: bs, c, pc, j + 1, h, hj => by
    rw [List.length_cons] at h hj
    rw [write, List.getElem?_cons_succ, show pc + (j + 1) = pc + 1 + j by omega]
    refine getElem?_write_inside bs _ (pc + 1) j ?_ (by omega)
    rw [size, Array.size_setIfInBounds]
    unfold size at h
    omega

/-! ## Cached calls -/

/-- The bytes of a cached call to call site `index`. -/
def cachedBytes (index : Nat) : List UInt8 := UInt8.ofNat Opcode.cachedCall.value :: littleEndian 4 index

theorem length_cachedBytes (index : Nat) : (cachedBytes index).length = 5 := rfl

theorem cachedCall_patchLength (index : Nat) : cachedCall index patchLength = .ok (cachedBytes index) := by
  rw [cachedCall, if_neg (Nat.lt_irrefl _), Nat.sub_self, List.replicate_zero, List.append_nil]
  rfl

/-- **A cached call reads as such**, with the number of its site modulo `2 ^ 32`. -/
theorem cachedBytes_read {index : Nat} (hs : pc + 5 ≤ c.size)
    (hb : ∀ j, j < 5 → c.bytes[pc + j]? = (cachedBytes index)[j]?) :
    c.opcodeAt pc = .ok .cachedCall ∧ c.nextOffset pc = .ok (pc + 5) ∧ c.operand 4 pc = .ok (index % 2 ^ 32) := by
  have hfirst : c.bytes[pc]? = some (UInt8.ofNat Opcode.cachedCall.value) := hb 0 (by decide)
  have hfind : Opcode.all.find? (·.value == 0xA6) = some .cachedCall := rfl
  have hop : c.opcodeAt pc = .ok .cachedCall := by
    rw [opcodeAt, hfirst]
    simp only [show UInt8.ofNat Opcode.cachedCall.value ≠ Opcode.escape by decide, ↓reduceIte, opcodeAt.found]
    rw [show (UInt8.ofNat Opcode.cachedCall.value).toNat = 0xA6 from rfl, Opcode.ofValue?_oneByte (by decide), hfind]
  refine ⟨hop, ?_, ?_⟩
  · simp only [nextOffset, hop, bind, Except.bind, pure, Except.pure]
    exact if_pos hs
  · have hext : (c.bytes.extract (pc + 1) (pc + 1 + 4)).toList = littleEndian 4 index := by
      apply List.ext_getElem?
      intro j
      rw [Array.getElem?_toList, Array.getElem?_extract]
      have hsize : c.bytes.size = c.size := rfl
      split
      · have := hb (1 + j) (by omega)
        rw [show pc + (1 + j) = pc + 1 + j by omega, show 1 + j = j + 1 by omega, cachedBytes,
          List.getElem?_cons_succ] at this
        exact this
      · exact (List.getElem?_eq_none (by rw [length_littleEndian]; omega)).symm
    rw [operand_eq hop, readAt, show Opcode.cachedCall.size = 1 from rfl, if_pos (by omega), hext]
    exact congrArg Except.ok (ofLittleEndian_littleEndian 4 index)

/-! ## Patched code -/

/-- **The code `c` is `c₀` with cached calls**: site `i` stands at the `i`th offset of `sites`. -/
structure Patched (c₀ c : Code) (sites : List Nat) : Prop where
  size : c.size = c₀.size
  nodup : sites.Nodup
  inside : ∀ off ∈ sites, off + 5 ≤ c₀.size
  outside : ∀ k, (∀ off ∈ sites, k < off ∨ off + 5 ≤ k) → c.bytes[k]? = c₀.bytes[k]?
  site : ∀ i off, sites[i]? = some off → ∀ j, j < 5 → c.bytes[off + j]? = (cachedBytes i)[j]?

theorem Patched.refl (c₀ : Code) : c₀.Patched c₀ [] where
  size := rfl
  nodup := List.nodup_nil
  inside := fun _ h => by cases h
  outside := fun _ _ => rfl
  site := fun i off h => by cases h

/-- **One more cached call**, away from all the others. -/
theorem Patched.write {sites : List Nat} (h : c₀.Patched c sites) (hs : pc + 5 ≤ c₀.size)
    (hd : ∀ off ∈ sites, off + 5 ≤ pc ∨ pc + 5 ≤ off) :
    c₀.Patched (c.write pc (cachedBytes sites.length)) (sites ++ [pc]) where
  size := by rw [size_write, h.size]
  nodup := by
    refine List.nodup_append.2 ⟨h.nodup, List.pairwise_singleton _ _, fun off ho q hq => ?_⟩
    have := hd off ho
    rw [List.mem_singleton.1 hq]
    omega
  inside := by
    intro off ho
    rcases List.mem_append.1 ho with ho | ho
    · exact h.inside off ho
    · rw [List.mem_singleton.1 ho]; exact hs
  outside := by
    intro k hk
    have hpc := hk pc (by simp)
    rw [getElem?_write_outside _ _ _ _ (by rw [length_cachedBytes]; omega)]
    exact h.outside k fun off ho => hk off (by simp [ho])
  site := by
    intro i off hi j hj
    rcases Nat.lt_or_ge i sites.length with hlt | hge
    · rw [List.getElem?_append_left hlt] at hi
      have hoff := hd off (List.mem_of_getElem? hi)
      rw [getElem?_write_outside _ _ _ _ (by rw [length_cachedBytes]; omega)]
      exact h.site i off hi j hj
    · rw [List.getElem?_append_right hge] at hi
      have hi0 : i - sites.length = 0 := by
        cases hd : i - sites.length with
        | zero => rfl
        | succ n => rw [hd] at hi; cases hi
      rw [hi0] at hi
      cases hi
      rw [show i = sites.length by omega]
      exact getElem?_write_inside _ _ _ _ (by rw [length_cachedBytes, h.size]; exact hs)
        (by rw [length_cachedBytes]; exact hj)

/-- There is room for every site. -/
theorem Patched.length_le {sites : List Nat} (h : c₀.Patched c sites) : sites.length ≤ c₀.size := by
  have hsub : sites ⊆ List.range c₀.size := by
    intro off ho
    have := h.inside off ho
    exact List.mem_range.2 (by omega)
  have hle := h.nodup.length_le_of_subset hsub
  rwa [List.length_range] at hle

/-- An instruction away from every site has its declared bytes. -/
theorem Patched.agreeOn {sites : List Nat} (h : c₀.Patched c sites)
    (hd : ∀ off ∈ sites, off + 5 ≤ pc ∨ next ≤ off) : c₀.AgreeOn c pc next where
  size := h.size
  bytes := by
    intro k hl hh
    refine h.outside k fun off ho => ?_
    have := hd off ho
    omega

/-- A site reads as the cached call of its number. -/
theorem Patched.read_site {sites : List Nat} {i : Nat} (h : c₀.Patched c sites) (hi : sites[i]? = some pc) :
    c.opcodeAt pc = .ok .cachedCall ∧ c.nextOffset pc = .ok (pc + 5) ∧ c.operand 4 pc = .ok (i % 2 ^ 32) :=
  cachedBytes_read (by rw [h.size]; exact h.inside pc (List.mem_of_getElem? hi)) (h.site i pc hi)

end Code

end ManagedCode
