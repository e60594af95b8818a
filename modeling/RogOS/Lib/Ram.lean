import RogOS.Lib.Mem

/-!
A memory with addresses of 32 bits, which wrap around, and blocks of bytes in it.
-/

abbrev Ram := UInt32 → UInt8

namespace Ram

def fill (ram : Ram) (buf : UInt32) (n : Nat) (src : Mem) : Ram := fun a =>
  if (a - buf).toNat < n then src (a - buf).toNat else ram a

def view (ram : Ram) (buf : UInt32) : Mem := fun i => ram (buf + UInt32.ofNat i)

variable {ram : Ram} {buf a : UInt32} {n k i : Nat} {src src' : Mem}

theorem toNat_sub_add
    : (a - (buf + UInt32.ofNat n)).toNat = ((a - buf).toNat + 2 ^ 32 - n % 2 ^ 32) % 2 ^ 32 := by
  have ha := a.toNat_lt
  have hb := buf.toNat_lt
  rw [UInt32.toNat_sub, UInt32.toNat_sub, UInt32.toNat_add, UInt32.toNat_ofNat']
  omega

theorem toNat_add_sub (hi : i < 2 ^ 32) : (buf + UInt32.ofNat i - buf).toNat = i := by
  rw [UInt32.add_comm, UInt32.add_sub_cancel, UInt32.toNat_ofNat']
  omega

theorem fill_zero : ram.fill buf 0 src = ram := by
  funext a
  exact if_neg (Nat.not_lt_zero _)

theorem fill_of_lt (hi : i < n) (hn : n ≤ 2 ^ 32)
    : (ram.fill buf n src) (buf + UInt32.ofNat i) = src i := by
  unfold fill
  rw [toNat_add_sub (by omega), if_pos hi]

theorem fill_of_le (h : n ≤ (a - buf).toNat) : (ram.fill buf n src) a = ram a := if_neg (by omega)

theorem fill_fill (hn : n + k ≤ 2 ^ 32) (hsrc : ∀ i < k, src' i = src (n + i))
    : (ram.fill buf n src).fill (buf + UInt32.ofNat n) k src' = ram.fill buf (n + k) src := by
  funext a
  have ha := (a - buf).toNat_lt
  have hsub := @toNat_sub_add buf a n
  unfold fill
  by_cases h1 : (a - buf).toNat < n
  . rw [if_neg (by omega), if_pos h1, if_pos (by omega)]
  . by_cases h2 : (a - buf).toNat < n + k
    . rw [if_pos (by omega), if_pos h2, hsrc _ (by omega)]
      congr 1
      omega
    . rw [if_neg (by omega), if_neg h1, if_neg h2]

theorem view_add : ram.view (buf + UInt32.ofNat n) i = ram.view buf (n + i) := by
  unfold view
  rw [UInt32.ofNat_add, UInt32.add_assoc]

end Ram

theorem Mem.blit_append {m src src' : Mem} {off n k : Nat} (hsrc : ∀ i < k, src' i = src (n + i))
    : (m.blit off n src).blit (off + n) k src' = m.blit off (n + k) src := by
  funext a
  unfold Mem.blit
  by_cases h1 : off ≤ a ∧ a < off + n
  . rw [if_neg (by omega), if_pos h1, if_pos (by omega)]
  . by_cases h2 : off ≤ a ∧ a < off + (n + k)
    . rw [if_pos (by omega), if_pos h2, hsrc _ (by omega)]
      congr 1
      omega
    . rw [if_neg (by omega), if_neg h1, if_neg h2]
