import SlotCode.Text.Quoted

/-!
# Reading texts back

Texts that stand one after the other can be read back if each of them shows where it ends.

    number_told      a number ends before the first character that is no digit
    quoted_told      a quoted text ends at the first quote that is not escaped
    flatMap_told     a list of texts ends at a character that none of them begins with
-/

namespace SlotCode

open List

variable {α β : Type} {rest rest' : List Char}

/-- What `a` and `b` are written for can be read off their texts, if these go on with texts of `ends`. -/
def Told (ends : List Char → Prop) (text : α → List Char) (key : α → β) (a b : α) : Prop :=
  ∀ rest rest', ends rest → ends rest' → text a ++ rest = text b ++ rest' → key a = key b ∧ rest = rest'

/-- A part of characters of one kind ends before the first character that is of another. -/
theorem append_inj_of_head {p : Char → Bool} {xs ys : List Char} (hxs : ∀ c ∈ xs, p c = true)
    (hys : ∀ c ∈ ys, p c = true) (hrest : ∀ c ∈ rest.head?, p c = false)
    (hrest' : ∀ c ∈ rest'.head?, p c = false) (h : xs ++ rest = ys ++ rest') :
    xs = ys ∧ rest = rest' := by
  have htake : ∀ {zs tail : List Char}, (∀ c ∈ zs, p c = true) → (∀ c ∈ tail.head?, p c = false) →
      (zs ++ tail).takeWhile p = zs := by
    intro zs tail hzs htail
    rw [takeWhile_append_of_pos hzs]
    cases tail with
    | nil => simp
    | cons c tail => simp [htail c rfl]
  have hsame : xs = ys := by rw [← htake hxs hrest, h, htake hys hrest']
  subst hsame
  exact ⟨rfl, append_cancel_left h⟩

/-! ## Lists -/

variable {text : α → List Char} {key : α → β} {as bs : List α}

/-- Texts one after the other, up to a character that none of them begins with. -/
theorem flatMap_told {ends : List Char → Prop} {close : Char}
    (hends : ∀ (as : List α) tail, ends (as.flatMap text ++ close :: tail))
    (hhead : ∀ a tail tail', text a ++ tail ≠ close :: tail')
    (htold : ∀ a ∈ as, ∀ b ∈ bs, Told ends text key a b)
    (h : as.flatMap text ++ close :: rest = bs.flatMap text ++ close :: rest') :
    as.map key = bs.map key ∧ rest = rest' := by
  induction as generalizing bs with
  | nil =>
    cases bs with
    | nil => exact ⟨rfl, (List.cons.inj h).2⟩
    | cons b bs =>
      rw [flatMap_cons, append_assoc] at h
      exact absurd h.symm (hhead b _ _)
  | cons a as ih =>
    rw [flatMap_cons, append_assoc] at h
    cases bs with
    | nil => exact absurd h (hhead a _ _)
    | cons b bs =>
      rw [flatMap_cons, append_assoc] at h
      obtain ⟨hab, h⟩ := htold a mem_cons_self b mem_cons_self _ _ (hends as rest)
        (hends bs rest') h
      obtain ⟨hkeys, h⟩ := ih (fun a ha b hb =>
        htold a (mem_cons_of_mem _ ha) b (mem_cons_of_mem _ hb)) h
      exact ⟨by rw [map_cons, map_cons, hab, hkeys], h⟩

theorem intercalate_cons_eq (sep part : List Char) (parts : List (List Char)) :
    sep.intercalate (part :: parts) = part ++ parts.flatMap (sep ++ ·) := by
  induction parts generalizing part with
  | nil => simp
  | cons next parts ih =>
    rw [intercalate_cons_cons, ih, flatMap_cons, append_assoc, append_assoc]

/-! ## Numbers -/

theorem digitChar_inj : ∀ m < 16, ∀ n < 16, Nat.digitChar m = Nat.digitChar n → m = n := by
  decide

theorem toDigits_inj {b m n : Nat} (hb : 1 < b) (hb' : b ≤ 16) (h : b.toDigits m = b.toDigits n) :
    m = n := by
  have hlast : ∀ k, b.toDigits k =
      (if k < b then [] else b.toDigits (k / b)) ++ [(k % b).digitChar] := by
    intro k
    rw [Nat.toDigits_eq_if hb]
    split
    · next hk => rw [Nat.mod_eq_of_lt hk, nil_append]
    · rfl
  have hmod_lt : ∀ k, k % b < 16 := fun k => Nat.lt_of_lt_of_le (Nat.mod_lt k (by omega)) hb'
  induction m using Nat.strongRecOn generalizing n with
  | _ m ih =>
    rw [hlast m, hlast n] at h
    obtain ⟨hfront, hdigit⟩ := append_inj' h rfl
    have hmod : m % b = n % b := digitChar_inj _ (hmod_lt m) _ (hmod_lt n) (List.cons.inj hdigit).1
    have hdiv : m / b = n / b := by
      split at hfront <;> split at hfront
      · next hm hn => rw [Nat.div_eq_of_lt hm, Nat.div_eq_of_lt hn]
      · exact absurd hfront.symm Nat.toDigits_ne_nil
      · exact absurd hfront Nat.toDigits_ne_nil
      · next hm _ => exact ih (m / b) (Nat.div_lt_self (by omega) hb) hfront
    rw [← Nat.div_add_mod m b, hdiv, hmod, Nat.div_add_mod]

/-- The text does not go on with a digit. -/
def NoDigit (rest : List Char) : Prop :=
  ∀ c ∈ rest.head?, c.isDigit = false

theorem number_told {m n : Nat} (hrest : NoDigit rest) (hrest' : NoDigit rest')
    (h : (toString m).toList ++ rest = (toString n).toList ++ rest') : m = n ∧ rest = rest' := by
  have hdigits : ∀ k : Nat, ∀ c ∈ (toString k).toList, c.isDigit = true := by
    intro k c hc
    rw [Nat.toString_eq_ofList_toDigits, String.toList_ofList] at hc
    exact Nat.isDigit_of_mem_toDigits (by decide) (by decide) hc
  obtain ⟨hsame, h⟩ := append_inj_of_head (hdigits m) (hdigits n) hrest hrest' h
  rw [Nat.toString_eq_ofList_toDigits, Nat.toString_eq_ofList_toDigits, String.toList_ofList,
    String.toList_ofList] at hsame
  exact ⟨toDigits_inj (by decide) (by decide) hsame, h⟩

/-- The digits of a number and its sign. -/
theorem integer_cases (value : Int) :
    (∃ n : Nat, value = n ∧ (toString value).toList = (toString n).toList) ∨
      ∃ n : Nat, value = -n ∧ (toString value).toList = '-' :: (toString n).toList := by
  cases value with
  | ofNat n => exact .inl ⟨n, rfl, rfl⟩
  | negSucc n => exact .inr ⟨n + 1, rfl, by simp [Int.toString_eq_repr, Int.repr]⟩

theorem number_head (n : Nat) : ∃ c cs, (toString n).toList = c :: cs ∧ c.isDigit = true := by
  rw [Nat.toString_eq_ofList_toDigits, String.toList_ofList]
  cases hd : Nat.toDigits 10 n with
  | nil => exact absurd hd Nat.toDigits_ne_nil
  | cons c cs =>
    have hmem : c ∈ Nat.toDigits 10 n := hd ▸ mem_cons_self
    exact ⟨c, cs, rfl, Nat.isDigit_of_mem_toDigits (by decide) (by decide) hmem⟩

theorem integer_told {v w : Int} (hrest : NoDigit rest) (hrest' : NoDigit rest')
    (h : (toString v).toList ++ rest = (toString w).toList ++ rest') : v = w ∧ rest = rest' := by
  have hsign : ∀ (n : Nat) {tail tail' : List Char}, (toString n).toList ++ tail ≠ '-' :: tail' := by
    intro n tail tail' heq
    obtain ⟨c, cs, hn, hdigit⟩ := number_head n
    rw [hn] at heq
    cases (List.cons.inj heq).1
    cases hdigit
  rcases integer_cases v with ⟨m, rfl, hv⟩ | ⟨m, rfl, hv⟩ <;>
    rcases integer_cases w with ⟨n, rfl, hw⟩ | ⟨n, rfl, hw⟩ <;> rw [hv, hw] at h
  · exact (number_told hrest hrest' h).imp_left (congrArg Int.ofNat)
  · exact absurd h (hsign m)
  · exact absurd h.symm (hsign n)
  · exact (number_told hrest hrest' (List.cons.inj h).2).imp_left (congrArg fun k : Nat => -(k : Int))

/-! ## Quoted texts -/

namespace Text

/-- The letters that stand for characters behind a backslash. -/
def letters : List (Char × Char) :=
  [('"', '"'), ('\\', '\\'), ('\t', 't'), ('\n', 'n'), ('\r', 'r'), ('\x00', '0')]

theorem escaped_letter : ∀ x ∈ letters, escaped x.1 = ['\\', x.2] := by
  decide

theorem letters_inj : ∀ x ∈ letters, ∀ y ∈ letters, x.2 = y.2 → x.1 = y.1 := by
  decide

theorem u_not_letter : ∀ x ∈ letters, x.2 ≠ 'u' := by
  decide

theorem escaped_cases (c : Char) :
    (∃ letter, (c, letter) ∈ letters ∧ escaped c = ['\\', letter]) ∨
      escaped c = '\\' :: 'u' :: '{' :: (Nat.toDigits 16 c.toNat ++ ['}']) ∨
      (escaped c = [c] ∧ c ≠ '"' ∧ c ≠ '\\') := by
  by_cases hletter : ∃ letter, (c, letter) ∈ letters
  · obtain ⟨letter, hmem⟩ := hletter
    exact Or.inl ⟨letter, hmem, escaped_letter _ hmem⟩
  · have hne : ∀ x ∈ letters, c ≠ x.1 := by
      rintro ⟨d, letter⟩ hmem rfl
      exact hletter ⟨letter, hmem⟩
    simp only [letters, forall_mem_cons] at hne
    obtain ⟨hquote, hslash, htab, hfeed, hreturn, hnull, -⟩ := hne
    simp only [escaped, if_neg hquote, if_neg hslash, if_neg htab, if_neg hfeed, if_neg hreturn,
      if_neg hnull]
    split
    · exact Or.inr (Or.inl rfl)
    · exact Or.inr (Or.inr ⟨rfl, hquote, hslash⟩)

theorem close_not_mem_toDigits (n : Nat) : '}' ∉ Nat.toDigits 16 n := by
  induction n using Nat.strongRecOn with
  | _ n ih =>
    rw [Nat.toDigits_eq_if (by decide)]
    split
    · exact fun h => Nat.digitChar_ne '}' rfl (mem_singleton.1 h).symm
    · rw [mem_append, mem_singleton]
      rintro (h | h)
      · exact ih (n / 16) (by omega) h
      · exact Nat.digitChar_ne '}' rfl h.symm

theorem escaped_told {c d : Char} (h : escaped c ++ rest = escaped d ++ rest') : c = d ∧ rest = rest' := by
  rcases escaped_cases c with ⟨k, hk, hc⟩ | hc | ⟨hc, hquote, hslash⟩ <;>
    rcases escaped_cases d with ⟨l, hl, hd⟩ | hd | ⟨hd, hquote', hslash'⟩ <;>
    rw [hc, hd] at h <;> simp only [cons_append, nil_append, List.cons.injEq, true_and] at h
  · exact ⟨letters_inj _ hk _ hl h.1, h.2⟩
  · exact absurd h.1 (u_not_letter _ hk)
  · exact absurd h.1.symm hslash'
  · exact absurd h.1.symm (u_not_letter _ hl)
  · rw [append_assoc, append_assoc] at h
    have hplain : ∀ (e : Char), ∀ x ∈ Nat.toDigits 16 e.toNat, (x != '}') = true := by
      intro e x hx
      exact bne_iff_ne.2 fun heq => close_not_mem_toDigits _ (heq ▸ hx)
    obtain ⟨hdigits, h⟩ := append_inj_of_head (hplain c) (hplain d) (by simp) (by simp) h
    exact ⟨Char.toNat_inj.1 (toDigits_inj (by decide) (by decide) hdigits), (List.cons.inj h).2⟩
  · exact absurd h.1.symm hslash'
  · exact absurd h.1 hslash
  · exact absurd h.1 hslash
  · exact h

theorem quoted_told {s t : String} (h : (quoted s).toList ++ rest = (quoted t).toList ++ rest') :
    s = t ∧ rest = rest' := by
  have hhead : ∀ c tail tail', escaped c ++ tail ≠ '"' :: tail' := by
    intro c tail tail'
    rcases escaped_cases c with ⟨k, hk, hc⟩ | hc | ⟨hc, hquote, hslash⟩ <;> rw [hc]
    · simp
    · simp
    · exact fun heq => hquote (List.cons.inj heq).1
  simp only [quoted, String.toList_ofList, cons_append, append_assoc, nil_append,
    List.cons.injEq, true_and] at h
  have htold : ∀ c ∈ s.toList, ∀ d ∈ t.toList, Told (fun _ => True) escaped id c d :=
    fun c _ d _ rest rest' _ _ => escaped_told
  obtain ⟨hsame, h⟩ := flatMap_told (fun _ _ => trivial) hhead htold h
  rw [map_id, map_id] at hsame
  exact ⟨String.toList_inj.1 hsame, h⟩

end Text

end SlotCode
