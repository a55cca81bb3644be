import ClusterMaster.Document.Json.Reader
import ClusterMaster.Document.Json.Writer
import Mathlib

/-!
# JSON texts read back

A document that JSON has a form for is read back from the text it is written as, whatever texts and
numbers it holds. Each part of the writer is matched by the part of the reader that takes it off the
front again and leaves what stands behind it:

    readText     takes off   a text with its escapes                      (readText_flatMap_escape)
    readNumber   takes off   the digits of a number, up to a mark             (readNumber_toDigits)
    readValue    takes off   a document, with fuel for all its characters         (Plain.readsBack)
    parse?       undoes      render                                                 (parse?_render)

Numbers have no mark of their own at which they end; so behind a value there has to be nothing, or
one of the marks that follow values in lists and records (`Closed`).
-/

namespace ClusterMaster.Document.Json

/-- The documents that JSON has a form for. -/
inductive Plain : Document → Prop
  | null : Plain .null
  | bool (b : Bool) : Plain (.bool b)
  | int (n : Int) : Plain (.int n)
  | text (s : String) : Plain (.text s)
  | list {items : List Document} (h : ∀ d ∈ items, Plain d) : Plain (.list items)
  | record {fields : List (String × Document)} (h : ∀ f ∈ fields, Plain f.2) :
    Plain (.record fields)

/-- Nothing is left, or a mark that stands behind a value of a list or record. -/
inductive Closed : List Char → Prop
  | nil : Closed []
  | cons {c : Char} {cs : List Char} (h : c = ',' ∨ c = ']' ∨ c = '\x7d') : Closed (c :: cs)

-- The proofs go by the equations of the reader and the writer.
attribute [local simp] readText readValue readItems readFields write writeItems writeFields

/-! ## Texts -/

theorem hexUnit?_hexDigit {n : Nat} (h : n < 0x20) :
    hexUnit? '0' '0' (hexDigit (n / 16)) (hexDigit (n % 16)) = some n := by
  revert n
  decide

/-- A character is read back from its escape. -/
theorem readText_escape_append (c : Char) (cs : List Char) :
    readText (escape c ++ cs) = (readText cs).map fun r => (c :: r.1, r.2) := by
  unfold escape
  split_ifs with hquote hslash hline hreturn htab hback hfeed hcontrol
  · subst hquote
    simp [escaped?]
  · subst hslash
    simp [escaped?]
  · subst hline
    simp [escaped?]
  · subst hreturn
    simp [escaped?]
  · subst htab
    simp [escaped?]
  · subst hback
    simp [escaped?]
  · subst hfeed
    simp [escaped?]
  · have hlow : ¬ 0xD800 ≤ c.toNat := by omega
    have hmid : ¬ 0xDC00 ≤ c.toNat := by omega
    simp [hexUnit?_hexDigit hcontrol, hlow, hmid]
  · rw [List.singleton_append, readText]
    all_goals simp_all

theorem readText_flatMap_escape (cs rest : List Char) :
    readText (cs.flatMap escape ++ '"' :: rest) = some (cs, rest) := by
  induction cs with
  | nil => simp
  | cons c cs ih =>
    rw [List.flatMap_cons, List.append_assoc, readText_escape_append, ih]
    rfl

theorem readQuoted_flatMap_escape (s : String) (rest : List Char) :
    readQuoted (s.toList.flatMap escape ++ '"' :: rest) = some (some s, rest) := by
  rw [readQuoted, readText_flatMap_escape]
  simp

theorem writeText_append (s : String) (rest : List Char) :
    writeText s ++ rest = '"' :: (s.toList.flatMap escape ++ '"' :: rest) := by
  simp [writeText]

/-! ## Numbers -/

theorem decimalValue_toDigits (n : Nat) : decimalValue (Nat.toDigits 10 n) = n := by
  have hfold : decimalValue (Nat.toDigits 10 n) = Nat.ofDigitChars 10 (Nat.toDigits 10 n) 0 := by
    rw [decimalValue, Nat.ofDigitChars]
    congr 1
    funext m d
    rw [Nat.mul_comm]
    rfl
  rw [hfold, Nat.ofDigitChars_toDigits (by decide) (by decide)]

/-- Only zero begins with the digit zero. -/
theorem head_toDigits_ne_zero {n : Nat} (h : 0 < n) : (Nat.toDigits 10 n).head? ≠ some '0' := by
  induction n using Nat.strongRecOn with
  | ind n ih =>
    rcases Nat.lt_or_ge n 10 with hlt | hge
    · have hdigit : ∀ m < 10, 0 < m → m.digitChar ≠ '0' := by decide
      rw [Nat.toDigits_of_lt_base hlt]
      simpa using hdigit n hlt h
    · have hrest : (Nat.toDigits 10 (n / 10)).head? ≠ some '0' :=
        ih (n / 10) (Nat.div_lt_self h (by decide)) (Nat.div_pos hge (by decide))
      rw [Nat.toDigits_of_base_le (by decide) hge]
      rwa [List.head?_append_of_ne_nil _ Nat.toDigits_ne_nil]

theorem spanDigits_toDigits (n : Nat) {rest : List Char} (h : Closed rest) :
    spanDigits (Nat.toDigits 10 n ++ rest) = (Nat.toDigits 10 n, rest) := by
  have hdigits : ∀ c ∈ Nat.toDigits 10 n, c.isDigit = true := fun c hc =>
    Nat.isDigit_of_mem_toDigits (by decide) (by decide) hc
  have hrest : rest.takeWhile Char.isDigit = [] ∧ rest.dropWhile Char.isDigit = rest := by
    cases h with
    | nil => exact ⟨rfl, rfl⟩
    | cons h => rcases h with rfl | rfl | rfl <;> exact ⟨rfl, rfl⟩
  rw [spanDigits, List.takeWhile_append_of_pos hdigits, List.dropWhile_append_of_pos hdigits,
    hrest.1, hrest.2, List.append_nil]

theorem readNumber_toDigits (negative : Bool) (n : Nat) {rest : List Char} (h : Closed rest) :
    readNumber negative (Nat.toDigits 10 n ++ rest) =
      some (if negative ∧ n = 0 then .foreign else if negative then .int (-(n : Int)) else .int n,
        rest) := by
  have hafter : startsReal rest = false ∧ (skipFraction? rest).bind skipExponent? = some rest := by
    cases h with
    | nil => exact ⟨rfl, rfl⟩
    | cons h => rcases h with rfl | rfl | rfl <;> exact ⟨rfl, rfl⟩
  unfold readNumber
  rw [spanDigits_toDigits n h]
  simp only []
  split
  · rename_i hnil
    exact absurd hnil Nat.toDigits_ne_nil
  · rename_i c cs hzero
    rcases Nat.eq_zero_or_pos n with rfl | hpos
    · cases hzero
    · exact absurd (by rw [hzero]; rfl) (head_toDigits_ne_zero hpos)
  · rw [hafter.1, hafter.2, decimalValue_toDigits]
    simp

theorem skipBlanks_cons {c : Char} (hc : isBlank c = false) (cs : List Char) :
    skipBlanks (c :: cs) = c :: cs :=
  List.dropWhile_cons_of_neg (by simp [hc])

theorem isBlank_of_isDigit {c : Char} (hc : c.isDigit = true) : isBlank c = false := by
  refine Bool.eq_false_iff.mpr fun h => ?_
  simp only [isBlank, Bool.or_eq_true, beq_iff_eq] at h
  rcases h with ((rfl | rfl) | rfl) | rfl <;> cases hc

/-- A digit can only begin a number. -/
theorem readValue_of_isDigit {c : Char} (hc : c.isDigit = true) (fuel : Nat) (cs : List Char) :
    readValue (fuel + 1) (c :: cs) = readNumber false (c :: cs) := by
  rw [readValue, skipBlanks_cons (isBlank_of_isDigit hc)]
  split
  case h_8 => rfl
  all_goals
    rename_i heq
    obtain ⟨rfl, -⟩ := List.cons.inj heq
    cases hc

theorem exists_toDigits_eq_cons (n : Nat) :
    ∃ c cs, Nat.toDigits 10 n = c :: cs ∧ c.isDigit = true := by
  obtain ⟨c, cs, hcs⟩ := List.exists_cons_of_ne_nil (@Nat.toDigits_ne_nil n 10)
  have hmem : c ∈ Nat.toDigits 10 n := hcs ▸ List.mem_cons_self
  exact ⟨c, cs, hcs, Nat.isDigit_of_mem_toDigits (by decide) (by decide) hmem⟩

theorem write_ofNat (n : Nat) : write (.int (.ofNat n)) = Nat.toDigits 10 n := by
  simp [toString, Int.repr, Nat.repr]

theorem write_negSucc (n : Nat) :
    write (.int (.negSucc n)) = '-' :: Nat.toDigits 10 (n + 1) := by
  simp [toString, Int.repr, Nat.repr]

theorem readValue_int (n : Int) (fuel : Nat) {rest : List Char} (h : Closed rest) :
    readValue (fuel + 1) (write (.int n) ++ rest) = some (.int n, rest) := by
  cases n with
  | ofNat n =>
    obtain ⟨c, cs, hcs, hc⟩ := exists_toDigits_eq_cons n
    rw [write_ofNat, hcs, List.cons_append, readValue_of_isDigit hc, ← List.cons_append, ← hcs,
      readNumber_toDigits false n h]
    simp
  | negSucc n =>
    rw [write_negSucc, List.cons_append, readValue]
    show readNumber true (Nat.toDigits 10 (n + 1) ++ rest) = _
    rw [readNumber_toDigits true (n + 1) h]
    simp [Int.negSucc_eq]

/-! ## Lists and records -/

/-- A document is read back with fuel for each of its characters. -/
def ReadsBack (d : Document) : Prop := ∀ fuel rest, (write d).length ≤ fuel → Closed rest →
  readValue fuel (write d ++ rest) = some (d, rest)

/-- No value begins with a blank or with the end of a list. -/
theorem write_begins (d : Document) :
    ∃ c cs, write d = c :: cs ∧ isBlank c = false ∧ c ≠ ']' := by
  cases d with
  | null | foreign | mapping | reference => exact ⟨'n', _, rfl, rfl, by decide⟩
  | bool b =>
    cases b with
    | true => exact ⟨'t', _, rfl, rfl, by decide⟩
    | false => exact ⟨'f', _, rfl, rfl, by decide⟩
  | int n =>
    cases n with
    | ofNat n =>
      obtain ⟨c, cs, hcs, hc⟩ := exists_toDigits_eq_cons n
      refine ⟨c, cs, (write_ofNat n).trans hcs, isBlank_of_isDigit hc, ?_⟩
      rintro rfl
      cases hc
    | negSucc n => exact ⟨'-', _, write_negSucc n, rfl, by decide⟩
  | text | scalar => exact ⟨'"', _, rfl, rfl, by decide⟩
  | list => exact ⟨'[', _, rfl, rfl, by decide⟩
  | record => exact ⟨'\x7b', _, rfl, rfl, by decide⟩

theorem writeItems_singleton (d : Document) : writeItems [d] = write d ++ [']'] := by
  rw [writeItems]

theorem writeItems_cons_cons (d e : Document) (es : List Document) :
    writeItems (d :: e :: es) = write d ++ ',' :: writeItems (e :: es) := by
  rw [writeItems]
  exact fun h => nomatch h

theorem writeFields_singleton (f : String × Document) :
    writeFields [f] = writeText f.1 ++ ':' :: (write f.2 ++ ['\x7d']) := by
  rw [writeFields]
  simp

theorem writeFields_cons_cons (f g : String × Document) (gs : List (String × Document)) :
    writeFields (f :: g :: gs) =
      writeText f.1 ++ ':' :: (write f.2 ++ ',' :: writeFields (g :: gs)) := by
  rw [writeFields]
  · simp
  · exact fun h => nomatch h

theorem write_length_pos (d : Document) : 0 < (write d).length := by
  obtain ⟨c, cs, hcs, -, -⟩ := write_begins d
  rw [hcs]
  exact Nat.succ_pos _

theorem ReadsBack.of_succ {d : Document} (h : ∀ fuel rest, (write d).length ≤ fuel + 1 →
    Closed rest → readValue (fuel + 1) (write d ++ rest) = some (d, rest)) : ReadsBack d := by
  intro fuel rest hfuel hrest
  obtain ⟨fuel, rfl⟩ := Nat.exists_eq_add_of_le' (Nat.lt_of_lt_of_le (write_length_pos d) hfuel)
  exact h fuel rest hfuel hrest

theorem readItems_last {fuel : Nat} {cs rest : List Char} {d : Document}
    (h : readValue fuel cs = some (d, ']' :: rest)) :
    readItems (fuel + 1) cs = some ([d], rest) := by
  rw [readItems, h]
  rfl

theorem readItems_more {fuel : Nat} {cs rest rest' : List Char} {d : Document}
    {ds : List Document} (h : readValue fuel cs = some (d, ',' :: rest))
    (hds : readItems fuel rest = some (ds, rest')) :
    readItems (fuel + 1) cs = some (d :: ds, rest') := by
  rw [readItems, h]
  show (readItems fuel rest).bind (fun r => some (d :: r.1, r.2)) = _
  rw [hds]
  rfl

theorem readItems_writeItems {d : Document} {ds : List Document}
    (h : ∀ e ∈ d :: ds, ReadsBack e) (fuel : Nat) (rest : List Char)
    (hfuel : (writeItems (d :: ds)).length ≤ fuel) :
    readItems fuel (writeItems (d :: ds) ++ rest) = some (d :: ds, rest) := by
  have hd : ReadsBack d := h d List.mem_cons_self
  have hpos := write_length_pos d
  induction ds generalizing d fuel with
  | nil =>
    rw [writeItems_singleton, List.length_append, List.length_singleton] at hfuel
    obtain ⟨fuel, rfl⟩ := Nat.exists_eq_add_of_le' (Nat.le_of_add_left_le hfuel)
    rw [writeItems_singleton, List.append_assoc]
    exact readItems_last (hd fuel _ (Nat.le_of_succ_le_succ hfuel) (.cons (by decide)))
  | cons e es ih =>
    rw [writeItems_cons_cons, List.length_append, List.length_cons] at hfuel
    obtain ⟨fuel, rfl⟩ : ∃ n, fuel = n + 1 := Nat.exists_eq_add_of_le' (by omega)
    rw [writeItems_cons_cons, List.append_assoc, List.cons_append]
    have hrest : ∀ e' ∈ e :: es, ReadsBack e' := fun e' he' => h e' (List.mem_cons_of_mem _ he')
    exact readItems_more (hd fuel _ (by omega) (.cons (by decide)))
      (ih hrest fuel (by omega) (hrest e List.mem_cons_self) (write_length_pos e))

theorem readFields_last {fuel : Nat} {name : String} {cs rest : List Char} {d : Document}
    (h : readValue fuel cs = some (d, '\x7d' :: rest)) :
    readFields (fuel + 1) (writeText name ++ ':' :: cs) = some (some [(name, d)], rest) := by
  rw [readFields, writeText_append, skipBlanks_cons rfl]
  simp only [readQuoted_flatMap_escape]
  show (readValue fuel cs).bind _ = _
  rw [h]
  rfl

theorem readFields_more {fuel : Nat} {name : String} {cs rest rest' : List Char} {d : Document}
    {fs : List (String × Document)} (h : readValue fuel cs = some (d, ',' :: rest))
    (hfs : readFields fuel rest = some (some fs, rest')) :
    readFields (fuel + 1) (writeText name ++ ':' :: cs) =
      some (some ((name, d) :: fs), rest') := by
  rw [readFields, writeText_append, skipBlanks_cons rfl]
  simp only [readQuoted_flatMap_escape]
  show (readValue fuel cs).bind _ = _
  rw [h]
  show (readFields fuel rest).bind _ = _
  rw [hfs]
  rfl

theorem readFields_writeFields {f : String × Document} {fs : List (String × Document)}
    (h : ∀ g ∈ f :: fs, ReadsBack g.2) (fuel : Nat) (rest : List Char)
    (hfuel : (writeFields (f :: fs)).length ≤ fuel) :
    readFields fuel (writeFields (f :: fs) ++ rest) = some (some (f :: fs), rest) := by
  have hd : ReadsBack f.2 := h f List.mem_cons_self
  induction fs generalizing f fuel with
  | nil =>
    simp only [writeFields_singleton, List.length_append, List.length_cons] at hfuel
    obtain ⟨fuel, rfl⟩ : ∃ n, fuel = n + 1 := Nat.exists_eq_add_of_le' (by omega)
    rw [writeFields_singleton, List.append_assoc, List.cons_append, List.append_assoc]
    exact readFields_last (hd fuel _ (by omega) (.cons (by decide)))
  | cons g gs ih =>
    simp only [writeFields_cons_cons, List.length_append, List.length_cons] at hfuel
    obtain ⟨fuel, rfl⟩ : ∃ n, fuel = n + 1 := Nat.exists_eq_add_of_le' (by omega)
    rw [writeFields_cons_cons, List.append_assoc, List.cons_append, List.append_assoc,
      List.cons_append]
    have hrest : ∀ g' ∈ g :: gs, ReadsBack g'.2 := fun g' hg' => h g' (List.mem_cons_of_mem _ hg')
    exact readFields_more (hd fuel _ (by omega) (.cons (by decide)))
      (ih hrest fuel (by omega) (hrest g List.mem_cons_self))

/-! ## Documents -/

theorem readValue_list {c : Char} (hblank : isBlank c = false) (hend : c ≠ ']') (fuel : Nat)
    (cs : List Char) : readValue (fuel + 1) ('[' :: c :: cs) =
      (readItems fuel (c :: cs)).map fun r => (.list r.1, r.2) := by
  rw [readValue, skipBlanks_cons rfl]
  simp only [skipBlanks_cons hblank]
  split
  · rename_i heq
    exact absurd (List.cons.inj heq).1 hend
  · rfl

theorem readsBack_list {items : List Document} (h : ∀ d ∈ items, ReadsBack d) :
    ReadsBack (.list items) := by
  refine .of_succ fun fuel rest hfuel _ => ?_
  rw [write, List.length_cons] at hfuel
  rw [write]
  cases items with
  | nil =>
    rw [writeItems, readValue]
    rfl
  | cons d ds =>
    have hread := readItems_writeItems h fuel rest (Nat.le_of_succ_le_succ hfuel)
    obtain ⟨c, cs, hcs, hblank, hend⟩ := write_begins d
    have hbegins : ∃ cs', writeItems (d :: ds) ++ rest = c :: cs' := by
      cases ds with
      | nil => exact ⟨_, by rw [writeItems_singleton, hcs]; rfl⟩
      | cons e es => exact ⟨_, by rw [writeItems_cons_cons, hcs]; rfl⟩
    obtain ⟨cs', hcs'⟩ := hbegins
    rw [List.cons_append, hcs', readValue_list hblank hend, ← hcs', hread]
    rfl

theorem readValue_record (fuel : Nat) (cs : List Char) :
    readValue (fuel + 1) ('\x7b' :: '"' :: cs) =
      (readFields fuel ('"' :: cs)).map fun r => (r.1.elim .foreign .record, r.2) := by
  rw [readValue, skipBlanks_cons rfl]
  rfl

theorem readsBack_record {fields : List (String × Document)}
    (h : ∀ f ∈ fields, ReadsBack f.2) : ReadsBack (.record fields) := by
  refine .of_succ fun fuel rest hfuel _ => ?_
  rw [write, List.length_cons] at hfuel
  rw [write]
  cases fields with
  | nil =>
    rw [writeFields, readValue]
    rfl
  | cons f fs =>
    have hread := readFields_writeFields h fuel rest (Nat.le_of_succ_le_succ hfuel)
    have hbegins : ∃ cs, writeFields (f :: fs) ++ rest = '"' :: cs := by
      cases fs with
      | nil => exact ⟨_, by rw [writeFields_singleton, writeText]; rfl⟩
      | cons g gs => exact ⟨_, by rw [writeFields_cons_cons, writeText]; rfl⟩
    obtain ⟨cs, hcs⟩ := hbegins
    rw [List.cons_append, hcs, readValue_record, ← hcs, hread]
    rfl

/-- Whatever JSON has a form for is read back from its text. -/
theorem Plain.readsBack {d : Document} (h : Plain d) : ReadsBack d := by
  induction h with
  | null =>
    refine .of_succ fun fuel rest _ _ => ?_
    rw [write, readValue]
    rfl
  | bool b =>
    refine .of_succ fun fuel rest _ _ => ?_
    cases b <;> (rw [write, readValue]; rfl)
  | int n => exact .of_succ fun fuel rest _ hrest => readValue_int n fuel hrest
  | text s =>
    refine .of_succ fun fuel rest _ _ => ?_
    rw [write, writeText_append, readValue, skipBlanks_cons rfl]
    simp only [readQuoted_flatMap_escape]
    rfl
  | list _ ih => exact readsBack_list ih
  | record _ ih => exact readsBack_record ih

/-- The reader undoes the writer. -/
theorem parse?_render {d : Document} (h : Plain d) : parse? (render d) = some d := by
  have hread : readValue ((write d).length + 1) (write d) = some (d, []) := by
    simpa using h.readsBack _ [] (Nat.le_succ _) .nil
  simp [parse?, render, hread, skipBlanks, -readValue]

end ClusterMaster.Document.Json
