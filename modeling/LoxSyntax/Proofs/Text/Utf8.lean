/-
# LoxSyntax.Proofs.Text.Utf8 -- what is decoded is what was encoded

A character is encoded by its LEAD byte and the groups of six bits that follow. `follow` takes exactly such
groups and gives back the number that they end (`follow_eq_ok_iff`), the bounds on the first byte and the
first follower leave exactly the numbers of characters at their shortest (`lead_iff`), so `sequence` succeeds
exactly on the encodings of characters (`sequence_eq_ok_iff`).

It follows by induction on the text that an input is decoded to a text exactly if it is the encoding of the
text (`decode_eq_ok_iff`). So texts with the same encoding are equal, and what is no encoding is refused.
-/
import LoxSyntax.Text.Utf8
import Mathlib.Logic.Function.Basic

namespace LoxSyntax.Text.Utf8

-- powers are the same whatever else is imported
attribute [local instance (high)] instPowNat

/-- The bytes of a text. -/
def encode (text : List Char) : List UInt8 := text.flatMap String.utf8EncodeChar

/-! ## Followers -/

/-- The last `count` groups of six bits of a number, each as the byte that holds it. -/
def groups : Nat → Nat → List UInt8
  | 0, _ => []
  | count + 1, code => UInt8.ofNat (code / 64 ^ count % 64 + 0x80) :: groups count code

theorem length_groups (count code : Nat) : (groups count code).length = count := by
  induction count with
  | zero => rfl
  | succ count ih => rw [groups, List.length_cons, ih]

theorem groups_one (code : Nat) : groups 1 code = [UInt8.ofNat (code % 64 + 0x80)] := by
  show [UInt8.ofNat (code / 1 % 64 + 0x80)] = _
  rw [Nat.div_one]

theorem groups_two (code : Nat) : groups 2 code = UInt8.ofNat (code / 64 % 64 + 0x80) :: groups 1 code := rfl

theorem groups_three (code : Nat) : groups 3 code = UInt8.ofNat (code / 4096 % 64 + 0x80) :: groups 2 code := rfl

/-- The first of the last `count` groups lies between bounds, if there is one. -/
def FirstWithin (least greatest count code : Nat) : Prop :=
  ∀ n, count = n + 1 → least ≤ code / 64 ^ n % 64 + 0x80 ∧ code / 64 ^ n % 64 + 0x80 ≤ greatest

/-- A byte that holds six bits is known from them. -/
theorem eq_ofNat_of_mod_eq {byte : UInt8} {n : Nat} (hleast : 0x80 ≤ byte.toNat) (hgreatest : byte.toNat ≤ 0xbf)
    (h : byte.toNat % 64 = n % 64) : byte = UInt8.ofNat (n % 64 + 0x80) := by
  have hn : byte.toNat = n % 64 + 0x80 := by omega
  rw [← hn, UInt8.ofNat_toNat]

theorem toNat_group (n : Nat) : (UInt8.ofNat (n % 64 + 0x80)).toNat = n % 64 + 0x80 := by
  rw [UInt8.toNat_ofNat']
  omega

theorem follow_succ_eq_ok_iff {least greatest bits count code : Nat} {byte : UInt8} {rest : List UInt8} :
    follow least greatest bits (count + 1) (byte :: rest) = .ok code ↔
      (least ≤ byte.toNat ∧ byte.toNat ≤ greatest) ∧
        follow 0x80 0xbf (64 * bits + byte.toNat % 64) count rest = .ok code := by
  rw [follow]
  by_cases hbounds : least ≤ byte.toNat ∧ byte.toNat ≤ greatest
  · rw [if_pos hbounds]
    cases follow 0x80 0xbf (64 * bits + byte.toNat % 64) count rest with
    | ok result => exact ⟨fun h => ⟨hbounds, h⟩, And.right⟩
    | error fault => exact ⟨nofun, fun h => nomatch h.2⟩
  · rw [if_neg hbounds]
    exact ⟨nofun, fun h => absurd h.1 hbounds⟩

/-- The followers of a sequence are read exactly if they are the last groups of a number that starts with the
bits already read, the first of them within its bounds. -/
theorem follow_eq_ok_iff {least greatest bits count code : Nat} {rest : List UInt8} (hleast : 0x80 ≤ least)
    (hgreatest : greatest ≤ 0xbf) :
    follow least greatest bits count rest = .ok code ↔
      code / 64 ^ count = bits ∧ FirstWithin least greatest count code ∧ groups count code <+: rest := by
  induction count generalizing least greatest bits rest with
  | zero =>
      rw [follow, Nat.pow_zero, Nat.div_one]
      exact ⟨fun h => ⟨(Except.ok.inj h).symm, nofun, List.nil_prefix⟩, fun h => congrArg Except.ok h.1.symm⟩
  | succ count ih =>
      have hpow : code / 64 ^ (count + 1) = code / 64 ^ count / 64 := by rw [Nat.pow_succ, Nat.div_div_eq_div_mul]
      have hfirst : FirstWithin 0x80 0xbf count code := by
        intro n _
        omega
      cases rest with
      | nil =>
          rw [follow]
          exact ⟨nofun, fun h => absurd h.2.2 (by simp [groups])⟩
      | cons byte rest =>
          rw [follow_succ_eq_ok_iff, ih (Nat.le_refl _) (Nat.le_refl _), hpow, groups, List.cons_prefix_cons]
          constructor
          · rintro ⟨⟨hlow, hhigh⟩, hbits, -, hrest⟩
            -- the bits read so far end in those of the byte, and `count` groups are still to come
            have hbyte : byte = UInt8.ofNat (code / 64 ^ count % 64 + 0x80) :=
              eq_ofNat_of_mod_eq (by omega) (by omega) (by omega)
            refine ⟨by omega, ?_, hbyte.symm, hrest⟩
            intro n hn
            obtain rfl := Nat.succ.inj hn
            rw [hbyte, toNat_group] at hlow hhigh
            exact ⟨hlow, hhigh⟩
          · rintro ⟨hbits, hwithin, rfl, hrest⟩
            have hbounds := hwithin count rfl
            rw [toNat_group]
            exact ⟨hbounds, by omega, hfirst, hrest⟩

/-! ## One sequence -/

/-- How many bytes follow the first in the encoding of a number. -/
def followerCount (code : Nat) : Nat :=
  if code ≤ 0x7f then 0 else if code ≤ 0x7ff then 1 else if code ≤ 0xffff then 2 else 3

/-- The first byte of the encoding of a number. -/
def leadByte (code : Nat) : Nat :=
  if code ≤ 0x7f then code else if code ≤ 0x7ff then code / 64 + 0xc0
  else if code ≤ 0xffff then code / 4096 + 0xe0 else code / 262144 + 0xf0

theorem utf8EncodeChar_eq (c : Char) :
    String.utf8EncodeChar c = UInt8.ofNat (leadByte c.toNat) :: groups (followerCount c.toNat) c.toNat := by
  have hlast : c.val.toNat < 0x110000 := by
    rcases c.valid with h | h
    · exact Nat.lt_trans h (by decide)
    · exact h.2
  show String.utf8EncodeChar c = UInt8.ofNat (leadByte c.val.toNat) :: groups (followerCount c.val.toNat) c.val.toNat
  unfold String.utf8EncodeChar leadByte followerCount
  dsimp only
  split
  · rfl
  · split
    · have hlead : c.val.toNat / 64 % 32 = c.val.toNat / 64 := Nat.mod_eq_of_lt (by omega)
      rw [hlead, groups_one]
    · split
      · have hlead : c.val.toNat / 4096 % 16 = c.val.toNat / 4096 := Nat.mod_eq_of_lt (by omega)
        rw [hlead, groups_two, groups_one]
      · have hlead : c.val.toNat / 262144 % 8 = c.val.toNat / 262144 := Nat.mod_eq_of_lt (by omega)
        rw [hlead, groups_three, groups_two, groups_one]

/-- The four lengths of an encoding, with what the first byte tells of each. -/
theorem leadByte_cases (code : Nat) :
    (code ≤ 0x7f ∧ leadByte code = code ∧ followerCount code = 0) ∨
    (0x7f < code ∧ code ≤ 0x7ff ∧ leadByte code = code / 64 + 0xc0 ∧ followerCount code = 1) ∨
    (0x7ff < code ∧ code ≤ 0xffff ∧ leadByte code = code / 4096 + 0xe0 ∧ followerCount code = 2) ∨
    (0xffff < code ∧ leadByte code = code / 262144 + 0xf0 ∧ followerCount code = 3) := by
  unfold leadByte followerCount
  split
  · omega
  · split
    · omega
    · split <;> omega

theorem leadByte_lt {code : Nat} (h : code.isValidChar) : leadByte code < UInt8.size := by
  have hcode := leadByte_cases code
  show leadByte code < 256
  omega

theorem lead?_eq_some_iff {byte : Nat} {lead : Lead} :
    lead? byte = some lead ↔
      (byte < 0x80 ∧ lead = ⟨0, 0x80, 0xbf, byte⟩) ∨
      (0xc2 ≤ byte ∧ byte < 0xe0 ∧ lead = ⟨1, 0x80, 0xbf, byte - 0xc0⟩) ∨
      (0xe0 ≤ byte ∧ byte < 0xf0 ∧ lead = ⟨2, if byte = 0xe0 then 0xa0 else 0x80,
        if byte = 0xed then 0x9f else 0xbf, byte - 0xe0⟩) ∨
      (0xf0 ≤ byte ∧ byte < 0xf5 ∧ lead = ⟨3, if byte = 0xf0 then 0x90 else 0x80,
        if byte = 0xf4 then 0x8f else 0xbf, byte - 0xf0⟩) := by
  unfold lead?
  grind

/-- What the first byte tells and the number must fit: the byte, the bounds on its first follower and the
number of followers leave the numbers of characters, each in its shortest form. -/
theorem lead_iff {byte code count : Nat} :
    (∃ lead, lead? byte = some lead ∧ lead.followers = count ∧ code / 64 ^ lead.followers = lead.bits ∧
      FirstWithin lead.least lead.greatest lead.followers code) ↔
    code.isValidChar ∧ byte = leadByte code ∧ count = followerCount code := by
  have hcode := leadByte_cases code
  constructor
  · rintro ⟨lead, hlead, rfl, hbits, hfirst⟩
    rcases lead?_eq_some_iff.1 hlead with
      ⟨hbyte, rfl⟩ | ⟨hlow, hhigh, rfl⟩ | ⟨hlow, hhigh, rfl⟩ | ⟨hlow, hhigh, rfl⟩
    · dsimp only at hbits ⊢
      omega
    · dsimp only at hbits ⊢
      omega
    -- the bounds on the first follower keep out what is too long, and the surrogates
    · obtain ⟨hleast, hgreatest⟩ := hfirst 1 rfl
      dsimp only at hbits hleast hgreatest ⊢
      split at hleast <;> split at hgreatest <;> omega
    -- here they keep out what is too long, and what is above the last character
    · obtain ⟨hleast, hgreatest⟩ := hfirst 2 rfl
      dsimp only at hbits hleast hgreatest ⊢
      split at hleast <;> split at hgreatest <;> omega
  · rintro ⟨hvalid, rfl, rfl⟩
    rcases hcode with
      ⟨hle, hbyte, hcount⟩ | ⟨hlt, hle, hbyte, hcount⟩ | ⟨hlt, hle, hbyte, hcount⟩ | ⟨hlt, hbyte, hcount⟩
    · rw [hbyte, hcount]
      refine ⟨_, lead?_eq_some_iff.2 (.inl ⟨by omega, rfl⟩), rfl, Nat.div_one code, nofun⟩
    · rw [hbyte, hcount]
      refine ⟨_, lead?_eq_some_iff.2 (.inr (.inl ⟨by omega, by omega, rfl⟩)), rfl, ?_, ?_⟩
      · dsimp only
        omega
      · intro n hn
        dsimp only
        omega
    · rw [hbyte, hcount]
      refine ⟨_, lead?_eq_some_iff.2 (.inr (.inr (.inl ⟨by omega, by omega, rfl⟩))), rfl, ?_, ?_⟩
      · dsimp only
        omega
      · intro n hn
        obtain rfl := Nat.succ.inj hn
        dsimp only
        constructor <;> split <;> omega
    · rw [hbyte, hcount]
      refine ⟨_, lead?_eq_some_iff.2 (.inr (.inr (.inr ⟨by omega, by omega, rfl⟩))), rfl, ?_, ?_⟩
      · dsimp only
        omega
      · intro n hn
        obtain rfl := Nat.succ.inj hn
        dsimp only
        constructor <;> split <;> omega

/-- The bounds on the first follower are never wider than those on the others. -/
theorem lead?_bounds {byte : Nat} {lead : Lead} (h : lead? byte = some lead) :
    0x80 ≤ lead.least ∧ lead.greatest ≤ 0xbf := by
  rcases lead?_eq_some_iff.1 h with ⟨-, rfl⟩ | ⟨-, -, rfl⟩ | ⟨-, -, rfl⟩ | ⟨-, -, rfl⟩
  · exact ⟨Nat.le_refl _, Nat.le_refl _⟩
  · exact ⟨Nat.le_refl _, Nat.le_refl _⟩
  · constructor <;> dsimp only <;> split <;> decide
  · constructor <;> dsimp only <;> split <;> decide

theorem sequence_eq_ok_iff_follow {byte : UInt8} {rest : List UInt8} {code count : Nat} :
    sequence byte rest = .ok (code, count) ↔ ∃ lead, lead? byte.toNat = some lead ∧ lead.followers = count ∧
      follow lead.least lead.greatest lead.bits lead.followers rest = .ok code := by
  unfold sequence
  cases lead? byte.toNat with
  | none => exact ⟨nofun, nofun⟩
  | some lead =>
      dsimp only
      constructor
      · intro h
        split at h
        · rename_i read hread
          obtain ⟨rfl, rfl⟩ := Prod.mk.inj (Except.ok.inj h)
          exact ⟨lead, rfl, rfl, hread⟩
        · cases h
      · rintro ⟨lead', hlead, rfl, hread⟩
        obtain rfl := Option.some.inj hlead
        rw [hread]

/-- A sequence is read exactly if the input starts with the first byte of a character and its groups. -/
theorem sequence_eq_ok_iff {byte : UInt8} {rest : List UInt8} {code count : Nat} :
    sequence byte rest = .ok (code, count) ↔
      (code.isValidChar ∧ byte.toNat = leadByte code ∧ count = followerCount code) ∧
        groups count code <+: rest := by
  rw [sequence_eq_ok_iff_follow, ← lead_iff]
  constructor
  · rintro ⟨lead, hlead, rfl, hread⟩
    obtain ⟨hleast, hgreatest⟩ := lead?_bounds hlead
    obtain ⟨hbits, hfirst, hgroups⟩ := (follow_eq_ok_iff hleast hgreatest).1 hread
    exact ⟨⟨lead, hlead, rfl, hbits, hfirst⟩, hgroups⟩
  · rintro ⟨⟨lead, hlead, rfl, hbits, hfirst⟩, hgroups⟩
    obtain ⟨hleast, hgreatest⟩ := lead?_bounds hlead
    exact ⟨lead, hlead, rfl, (follow_eq_ok_iff hleast hgreatest).2 ⟨hbits, hfirst, hgroups⟩⟩

/-- The encoding of a character is read as its number. -/
theorem sequence_leadByte (c : Char) (rest : List UInt8) :
    sequence (UInt8.ofNat (leadByte c.toNat)) (groups (followerCount c.toNat) c.toNat ++ rest) =
      .ok (c.toNat, followerCount c.toNat) := by
  have hbyte : (UInt8.ofNat (leadByte c.toNat)).toNat = leadByte c.toNat :=
    UInt8.toNat_ofNat_of_lt' (leadByte_lt c.valid)
  exact sequence_eq_ok_iff.2 ⟨⟨c.valid, hbyte, rfl⟩, List.prefix_append _ _⟩

/-! ## A whole text -/

theorem decodeFrom_cons_eq_ok_iff {position : Nat} {byte : UInt8} {rest : List UInt8} {text : List Char} :
    decodeFrom position (byte :: rest) = .ok text ↔
      ∃ code count more, sequence byte rest = .ok (code, count) ∧
        decodeFrom (position + 1 + count) (rest.drop count) = .ok more ∧ text = Char.ofNat code :: more := by
  rw [decodeFrom]
  constructor
  · intro h
    cases hread : sequence byte rest with
    | error fault =>
        rw [hread] at h
        cases h
    | ok read =>
        obtain ⟨code, count⟩ := read
        rw [hread] at h
        dsimp only at h
        cases hmore : decodeFrom (position + 1 + count) (rest.drop count) with
        | error fault =>
            rw [hmore] at h
            cases h
        | ok more =>
            rw [hmore] at h
            exact ⟨code, count, more, rfl, hmore, (Except.ok.inj h).symm⟩
  · rintro ⟨code, count, more, hread, hmore, rfl⟩
    rw [hread]
    dsimp only
    rw [hmore]
    rfl

/-- From its first byte on, an input is decoded to a text that starts with a character exactly if the encoding
of the character comes first and the rest is decoded to the rest. -/
theorem decodeFrom_eq_ok_cons_iff {position : Nat} {bytes : List UInt8} {c : Char} {text : List Char} :
    decodeFrom position bytes = .ok (c :: text) ↔
      ∃ rest, bytes = String.utf8EncodeChar c ++ rest ∧
        decodeFrom (position + 1 + followerCount c.toNat) rest = .ok text := by
  rw [utf8EncodeChar_eq]
  constructor
  · intro h
    cases bytes with
    | nil =>
        rw [decodeFrom] at h
        cases h
    | cons byte rest =>
        obtain ⟨code, count, more, hread, hmore, htext⟩ := decodeFrom_cons_eq_ok_iff.1 h
        obtain ⟨⟨hvalid, hbyte, rfl⟩, tail, rfl⟩ := sequence_eq_ok_iff.1 hread
        obtain ⟨rfl, rfl⟩ := List.cons.inj htext
        have hcode : (Char.ofNat code).toNat = code := by
          rw [Char.ofNat, dif_pos hvalid]
          rfl
        rw [List.drop_left' (length_groups _ _)] at hmore
        refine ⟨tail, ?_, ?_⟩
        · rw [hcode, ← hbyte, UInt8.ofNat_toNat]
          rfl
        · rw [hcode]
          exact hmore
  · rintro ⟨rest, rfl, hrest⟩
    have hdrop : (groups (followerCount c.toNat) c.toNat ++ rest).drop (followerCount c.toNat) = rest :=
      List.drop_left' (length_groups _ _)
    rw [List.cons_append]
    refine decodeFrom_cons_eq_ok_iff.2 ⟨_, _, text, sequence_leadByte c rest, ?_, ?_⟩
    · rw [hdrop]
      exact hrest
    · rw [Char.ofNat_toNat]

theorem decodeFrom_eq_ok_iff {position : Nat} {bytes : List UInt8} {text : List Char} :
    decodeFrom position bytes = .ok text ↔ bytes = encode text := by
  induction text generalizing position bytes with
  | nil =>
      constructor
      · intro h
        cases bytes with
        | nil => rfl
        | cons byte rest =>
            obtain ⟨code, count, more, -, -, hnil⟩ := decodeFrom_cons_eq_ok_iff.1 h
            cases hnil
      · rintro rfl
        exact decodeFrom.eq_1 position
  | cons c text ih =>
      rw [decodeFrom_eq_ok_cons_iff, encode, List.flatMap_cons]
      constructor
      · rintro ⟨rest, rfl, hrest⟩
        rw [ih.1 hrest]
        rfl
      · rintro rfl
        exact ⟨_, rfl, ih.2 rfl⟩

/-- An input is decoded to a text exactly if it is the encoding of the text. -/
theorem decode_eq_ok_iff {bytes : List UInt8} {text : List Char} :
    decode bytes = .ok text ↔ bytes = encode text := decodeFrom_eq_ok_iff

/-- Texts of the same encoding are equal. -/
theorem encode_injective : Function.Injective encode := by
  intro a b h
  have hdecoded : decode (encode a) = .ok b := decode_eq_ok_iff.2 h
  exact Except.ok.inj ((decode_eq_ok_iff.2 rfl).symm.trans hdecoded)

/-- What is the encoding of no text is refused. -/
theorem exists_decode_eq_error {bytes : List UInt8} (h : ∀ text, encode text ≠ bytes) :
    ∃ fault, decode bytes = .error fault := by
  cases hdecoded : decode bytes with
  | error fault => exact ⟨fault, rfl⟩
  | ok text => exact absurd (decode_eq_ok_iff.1 hdecoded).symm (h text)

end LoxSyntax.Text.Utf8
