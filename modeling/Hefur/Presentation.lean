import Hefur.Decimal

/-!
# Addresses as texts

`Inet.Lawful` is what the tracker relies on when it compares the texts of
addresses: `inet_pton` undoes `inet_ntop`, and the text of an IPv6 address is
no IPv4 address.

`lawful_plain`: the concrete conversions have this property.
-/

namespace Hefur

open Bytes

/-- `inet_pton` reads what `inet_ntop` writes. -/
structure Inet.Lawful (net : Inet) : Prop where
  pton4_ntop4 : ∀ a, net.pton4 (net.ntop4 a) = some a
  pton4_ntop6 : ∀ a, net.pton4 (net.ntop6 a) = none
  pton6_ntop6 : ∀ a, net.pton6 (net.ntop6 a) = some a

/-- The IP that a text writes, mapped addresses as IPv4. -/
def Ip.ofText (net : Inet) (text : Text) : Option Ip :=
  match net.pton4 text with
  | some addr => some (.v4 addr)
  | none =>
      (net.pton6 text).bind fun addr =>
        (Address.ofSockaddrIn6 ⟨0, addr, 0⟩).ip

/-- An IP of a socket: an IPv6 one is not mapped. -/
def Ip.Reduced : Ip → Prop
  | .v4 _ => True
  | .v6 addr => addr.val.take 12 ≠ v4MappedPrefix

theorem Ip.ofText_text {net : Inet} (hnet : net.Lawful) {ip : Ip}
    (hip : ip.Reduced) :
    Ip.ofText net (ip.text net) = some ip := by
  cases ip with
  | v4 addr =>
      rw [Ip.text, Ip.ofText, hnet.pton4_ntop4]
  | v6 addr =>
      rw [Ip.text, Ip.ofText, hnet.pton4_ntop6, hnet.pton6_ntop6]
      exact congrArg Address.ip (if_pos hip)

/-- The address of a socket is reduced. -/
theorem reduced_ofSockaddr {raw : Block 18} {s : Sockaddr} {ip : Ip}
    (hip : (Address.ofSockaddr raw s).ip = some ip) :
    ip.Reduced := by
  cases s with
  | inet sin =>
      obtain rfl := Option.some.inj hip
      exact trivial
  | inet6 sin6 =>
      simp only [Address.ofSockaddr, Address.ofSockaddrIn6] at hip
      split at hip
      · rename_i hmapped
        obtain rfl := Option.some.inj hip
        exact hmapped
      · obtain rfl := Option.some.inj hip
        exact trivial
  | other f =>
      cases hip

section Plain

theorem parseByte_decimal :
    ∀ n < 256, parseByte (decimal n) = some (UInt8.ofNat n) := by
  decide +kernel

theorem dot_not_mem_decimal (n : Nat) : 46 ∉ decimal n := by
  intro hmem
  have hdigit := isDigit_decimal hmem
  revert hdigit
  decide

theorem mapM_parseByte (bytes : List UInt8) :
    (bytes.map fun b => decimal b.toNat).mapM parseByte = some bytes := by
  induction bytes with
  | nil =>
      rfl
  | cons b bytes ih =>
      have hb := parseByte_decimal b.toNat b.toNat_lt
      rw [UInt8.ofNat_toNat] at hb
      rw [List.map_cons, List.mapM_cons, hb, ih]
      rfl

theorem pton4_ntop4_plain (a : Block 4) :
    Inet.plain.pton4 (Inet.plain.ntop4 a) = some a := by
  obtain ⟨bytes, hsize⟩ := a
  have hparts : (Inet.plain.ntop4 ⟨bytes, hsize⟩).splitOn 46 =
      bytes.map fun b => decimal b.toNat := by
    apply List.splitOn_intercalate
    · intro part hpart
      obtain ⟨b, -, rfl⟩ := List.mem_map.mp hpart
      exact dot_not_mem_decimal b.toNat
    · intro hnil
      obtain rfl := List.map_eq_nil_iff.mp hnil
      cases hsize
  simp only [Inet.plain] at hparts ⊢
  rw [hparts, mapM_parseByte]
  match bytes, hsize with
  | [_, _, _, _], _ => rfl

theorem hexValue_hexDigit :
    ∀ n < 16, hexValue (hexDigit n) = some n := by
  decide

theorem hexDigit_ne_separator :
    ∀ n < 16, hexDigit n ≠ 46 ∧ hexDigit n ≠ 58 := by
  decide

theorem not_mem_groupText : ∀ {bytes : List UInt8} {part : Text},
    part ∈ groupText bytes → 46 ∉ part ∧ 58 ∉ part
  | hi :: lo :: rest, part, hpart => by
      rcases List.mem_cons.mp hpart with rfl | hrest
      · have hhi := hi.toNat_lt
        have hlo := lo.toNat_lt
        have h1 := hexDigit_ne_separator (hi.toNat / 16) (by omega)
        have h2 := hexDigit_ne_separator (hi.toNat % 16) (by omega)
        have h3 := hexDigit_ne_separator (lo.toNat / 16) (by omega)
        have h4 := hexDigit_ne_separator (lo.toNat % 16) (by omega)
        simp [h1.1.symm, h1.2.symm, h2.1.symm, h2.2.symm, h3.1.symm,
          h3.2.symm, h4.1.symm, h4.2.symm]
      · exact not_mem_groupText hrest
  | [], part, hpart => by cases hpart
  | [_], part, hpart => by cases hpart

/-- A group of four digits is read as the two bytes it writes. -/
theorem parseGroup_digits (hi lo : UInt8) :
    parseGroup [hexDigit (hi.toNat / 16), hexDigit (hi.toNat % 16),
      hexDigit (lo.toNat / 16), hexDigit (lo.toNat % 16)] =
        some [hi, lo] := by
  have hhi := hi.toNat_lt
  have hlo := lo.toNat_lt
  have hvalue :
      ((hi.toNat / 16 * 16 + hi.toNat % 16) * 16 + lo.toNat / 16) * 16 +
        lo.toNat % 16 = hi.toNat * 256 + lo.toNat := by
    omega
  have hbytes : bytesBE 2 (hi.toNat * 256 + lo.toNat) = [hi, lo] := by
    have hhigh : (hi.toNat * 256 + lo.toNat) / 256 = hi.toNat := by omega
    have hlow : UInt8.ofNat (hi.toNat * 256 + lo.toNat) = lo := by
      apply UInt8.toNat_inj.mp
      rw [UInt8.toNat_ofNat']
      omega
    simp [bytesBE, hhigh, hlow]
  simp [parseGroup, hexValue_hexDigit (hi.toNat / 16) (by omega),
    hexValue_hexDigit (hi.toNat % 16) (by omega),
    hexValue_hexDigit (lo.toNat / 16) (by omega),
    hexValue_hexDigit (lo.toNat % 16) (by omega), hvalue, hbytes]

theorem mapM_parseGroup (n : Nat) :
    ∀ bytes : List UInt8, bytes.length = 2 * n →
      ∃ groups, (groupText bytes).mapM parseGroup = some groups ∧
        groups.flatten = bytes := by
  induction n with
  | zero =>
      intro bytes hsize
      rw [List.length_eq_zero_iff.mp hsize]
      exact ⟨[], rfl, rfl⟩
  | succ n ih =>
      intro bytes hsize
      match bytes, hsize with
      | hi :: lo :: rest, hsize =>
          obtain ⟨groups, hgroups, hflatten⟩ := ih rest
            (by simpa [Nat.mul_succ] using hsize)
          refine ⟨[hi, lo] :: groups, ?_, by simp [hflatten]⟩
          rw [groupText, List.mapM_cons, parseGroup_digits, hgroups]
          rfl

theorem pton6_ntop6_plain (a : Block 16) :
    Inet.plain.pton6 (Inet.plain.ntop6 a) = some a := by
  obtain ⟨bytes, hsize⟩ := a
  obtain ⟨groups, hgroups, hflatten⟩ := mapM_parseGroup 8 bytes hsize
  have hparts : (Inet.plain.ntop6 ⟨bytes, hsize⟩).splitOn 58 =
      groupText bytes := by
    apply List.splitOn_intercalate
    · intro part hpart
      exact (not_mem_groupText hpart).2
    · intro hnil
      rw [hnil] at hgroups
      obtain rfl := Option.some.inj hgroups
      rw [← hflatten] at hsize
      cases hsize
  simp only [Inet.plain] at hparts ⊢
  rw [hparts, hgroups]
  subst hflatten
  exact dif_pos hsize

theorem not_mem_intercalate {x : UInt8} {sep : Text} {parts : List Text}
    (hsep : x ∉ sep) (hparts : ∀ part ∈ parts, x ∉ part) :
    x ∉ List.intercalate sep parts := by
  induction parts with
  | nil =>
      simp
  | cons part parts ih =>
      have hpart := hparts part (by simp)
      have hrest := ih fun q hq => hparts q (List.mem_cons_of_mem part hq)
      cases parts with
      | nil =>
          simpa using hpart
      | cons next parts =>
          rw [List.intercalate_cons_cons]
          simp only [List.mem_append, not_or]
          exact ⟨⟨hpart, hsep⟩, hrest⟩

/-- Without a dot a text is one part, which is not four. -/
theorem pton4_ntop6_plain (a : Block 16) :
    Inet.plain.pton4 (Inet.plain.ntop6 a) = none := by
  have hdot : 46 ∉ Inet.plain.ntop6 a :=
    not_mem_intercalate (by decide) fun part hpart =>
      (not_mem_groupText hpart).1
  have hparts : (Inet.plain.ntop6 a).splitOn 46 = [Inet.plain.ntop6 a] :=
    List.splitOn_eq_singleton hdot
  simp only [Inet.plain] at hparts ⊢
  rw [hparts]
  simp only [List.mapM_cons, List.mapM_nil]
  cases parseByte _ with
  | none => rfl
  | some b => rfl

theorem lawful_plain : Inet.plain.Lawful where
  pton4_ntop4 := pton4_ntop4_plain
  pton4_ntop6 := pton4_ntop6_plain
  pton6_ntop6 := pton6_ntop6_plain

end Plain

end Hefur
