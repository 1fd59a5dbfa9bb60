import SvrFrame.Log.Pattern
import Mathlib.Algebra.Order.BigOperators.Group.List
import Mathlib.Algebra.Order.Group.Nat

namespace SvrFrame
namespace LogFormatter
set_option autoImplicit true

theorem split_unique {a a' q q' : List Char} (ha : c ∉ a) (ha' : c ∉ a')
    (h : a ++ c :: q = a' ++ c :: q') : a = a' ∧ q = q' := by
  induction a generalizing a' with
  | nil =>
    cases a' with
    | nil => cases h; exact ⟨rfl, rfl⟩
    | cons y a' =>
      cases h
      exact absurd List.mem_cons_self ha'
  | cons x a ih =>
    cases a' with
    | nil =>
      cases h
      exact absurd List.mem_cons_self ha
    | cons y a' =>
      injection h with hxy h
      obtain ⟨rfl, rfl⟩ := ih (fun h => ha (List.mem_cons_of_mem _ h))
        (fun h => ha' (List.mem_cons_of_mem _ h)) h
      exact ⟨by rw [hxy], rfl⟩

/-! ### How a pattern is read -/

theorem Tokens.of_lit (h : Tokens (c :: q) ts) (hc : c ≠ '%') :
    ∃ ts', ts = .lit c :: ts' ∧ Tokens q ts' := by
  cases h with
  | lit _ h => exact ⟨_, rfl, h⟩
  | _ => exact absurd rfl hc

/-- The three readings of a `%`. -/
theorem Tokens.percent_cases (h : Tokens ('%' :: r) ts) :
    (∃ p ts', r = '%' :: p ∧ ts = .lit '%' :: ts' ∧ Tokens ('%' :: p) ts') ∨
      (∃ x p ts', x ∈ directives ∧ ends p ∧ r = x :: p ∧ ts = .directive x none :: ts' ∧
        Tokens p ts') ∨
      ∃ x a p ts', x ∈ directives ∧ '}' ∉ a ∧ r = x :: '{' :: (a ++ '}' :: p) ∧
        ts = .directive x (some (String.ofList a)) :: ts' ∧ Tokens p ts' := by
  cases h with
  | lit hc => exact absurd rfl hc
  | escape h => exact .inl ⟨_, _, rfl, rfl, h⟩
  | plain hx hends h => exact .inr (.inl ⟨_, _, _, hx, hends, rfl, rfl, h⟩)
  | arg hx ha h => exact .inr (.inr ⟨_, _, _, _, hx, ha, rfl, rfl, h⟩)

theorem not_ends_brace (q : List Char) : ¬ ends ('{' :: q) := fun h => (h '{' rfl).2.1 rfl

theorem Tokens.of_escape (h : Tokens ('%' :: '%' :: q) ts) :
    ∃ ts', ts = .lit '%' :: ts' ∧ Tokens ('%' :: q) ts' := by
  obtain ⟨p, ts', hp, rfl, h⟩ | ⟨x, p, ts', hx, -, hp, -, -⟩ | ⟨x, a, p, ts', hx, -, hp, -, -⟩ :=
    h.percent_cases
  · cases hp
    exact ⟨ts', rfl, h⟩
  · cases hp
    exact absurd hx (by decide)
  · cases hp
    exact absurd hx (by decide)

theorem Tokens.of_plain (h : Tokens ('%' :: x :: q) ts) (hx : x ∈ directives) (hq : ends q) :
    ∃ ts', ts = .directive x none :: ts' ∧ Tokens q ts' := by
  obtain ⟨p, ts', hp, -, -⟩ | ⟨y, p, ts', -, -, hp, rfl, h⟩ | ⟨y, a, p, ts', -, -, hp, -, -⟩ :=
    h.percent_cases
  · cases hp
    exact absurd hx (by decide)
  · cases hp
    exact ⟨ts', rfl, h⟩
  · cases hp
    exact absurd hq (not_ends_brace _)

theorem Tokens.of_arg (h : Tokens ('%' :: x :: '{' :: (a ++ '}' :: q)) ts) (hx : x ∈ directives)
    (ha : '}' ∉ a) : ∃ ts', ts = .directive x (some (String.ofList a)) :: ts' ∧ Tokens q ts' := by
  obtain ⟨p, ts', hp, -, -⟩ | ⟨y, p, ts', -, hends, hp, -, -⟩ | ⟨y, b, p, ts', -, hb, hp, rfl, h⟩ :=
    h.percent_cases
  · cases hp
    exact absurd hx (by decide)
  · cases hp
    exact absurd hends (not_ends_brace _)
  · simp only [List.cons.injEq, true_and] at hp
    obtain ⟨rfl, hp⟩ := hp
    obtain ⟨rfl, rfl⟩ := split_unique ha hb hp
    exact ⟨ts', rfl, h⟩

theorem ends_append (h : ends p) (q : List Char) : ends (p ++ '%' :: q) := by
  cases p with
  | nil =>
    intro c hc
    cases hc
    decide
  | cons d p => exact h

/-- A pattern that an escape follows keeps its tokens. -/
theorem Tokens.append (h : Tokens a ta) (hq : Tokens (a ++ '%' :: q) ts) :
    ∃ ts', ts = ta ++ ts' ∧ Tokens ('%' :: q) ts' := by
  induction h generalizing ts with
  | nil => exact ⟨ts, rfl, hq⟩
  | lit hc _ ih =>
    obtain ⟨us, hus, hrest⟩ := hq.of_lit hc
    obtain ⟨ts', rfl, h⟩ := ih hrest
    exact ⟨ts', hus, h⟩
  | escape _ ih =>
    obtain ⟨us, hus, hrest⟩ := hq.of_escape
    obtain ⟨ts', rfl, h⟩ := ih hrest
    exact ⟨ts', hus, h⟩
  | plain hx hends _ ih =>
    obtain ⟨us, hus, hrest⟩ := hq.of_plain hx (ends_append hends q)
    obtain ⟨ts', rfl, h⟩ := ih hrest
    exact ⟨ts', hus, h⟩
  | arg hx ha _ ih =>
    simp only [List.cons_append, List.append_assoc] at hq
    obtain ⟨us, hus, hrest⟩ := hq.of_arg hx ha
    obtain ⟨ts', rfl, h⟩ := ih hrest
    exact ⟨ts', hus, h⟩

theorem Tokens.unique (h : Tokens q ts) (h' : Tokens q ts') : ts = ts' := by
  induction h generalizing ts' with
  | nil => cases h'; rfl
  | lit hc _ ih =>
    obtain ⟨us, rfl, hrest⟩ := h'.of_lit hc
    rw [ih hrest]
  | escape _ ih =>
    obtain ⟨us, rfl, hrest⟩ := h'.of_escape
    rw [ih hrest]
  | plain hx hends _ ih =>
    obtain ⟨us, rfl, hrest⟩ := h'.of_plain hx hends
    rw [ih hrest]
  | arg hx ha _ ih =>
    obtain ⟨us, rfl, hrest⟩ := h'.of_arg hx ha
    rw [ih hrest]

theorem Tokens.of_lits {w : List Char} (h : Tokens (w ++ q) ts) (hw : '%' ∉ w) :
    ∃ ts', ts = w.map .lit ++ ts' ∧ Tokens q ts' := by
  induction w generalizing ts with
  | nil => exact ⟨ts, rfl, h⟩
  | cons c w ih =>
    rw [List.mem_cons, not_or] at hw
    obtain ⟨us, rfl, hrest⟩ := h.of_lit (Ne.symm hw.1)
    obtain ⟨ts', rfl, hq⟩ := ih hrest hw.2
    exact ⟨ts', rfl, hq⟩

/-! ### What a pattern renders -/

def Token.render (env : FormatEnv) (level : LogLevel) (event : LogEvent) : Token → List Char
  | .lit c => [c]
  | .directive x arg => ((itemOf x (arg.getD "")).format env level event).toList

section
variable (env : FormatEnv) (level : LogLevel) (event : LogEvent)

theorem format_items (items : List FormatItem) (ss : String) :
    (items.foldl (fun ss item => ss ++ item.format env level event) ss).toList =
      ss.toList ++ items.flatMap fun item => (item.format env level event).toList := by
  induction items generalizing ss with
  | nil => simp
  | cons item items ih => simp [ih]

theorem render_literal (nstr : String) :
    ((literal nstr).flatMap fun item => (item.format env level event).toList) = nstr.toList := by
  simp only [literal]
  split
  · rename_i h; simp [h]
  · simp [FormatItem.format]

theorem render_items (nstr : String) (ts : List Token) :
    ((tokenItems nstr ts).flatMap fun item => (item.format env level event).toList) =
      nstr.toList ++ ts.flatMap (Token.render env level event) := by
  induction ts generalizing nstr with
  | nil => simp [tokenItems, render_literal]
  | cons t ts ih =>
    cases t with
    | lit c => simp [tokenItems, ih, Token.render]
    | directive x arg => simp [tokenItems, render_literal, ih, Token.render]

/-- An accepted pattern renders its tokens one after another. -/
theorem format_tokens (h : Tokens pattern.toList ts) :
    ((new pattern).format env level event).toList = ts.flatMap (Token.render env level event) := by
  rw [format, format_items, (new_of_tokens h).2, render_items]
  rfl

end

/-- A text up to the brace that closes it has tokens of its own. -/
theorem Tokens.of_closed (h : Tokens (a ++ '}' :: p) ts) (ha : '}' ∉ a) (hp : Tokens p tp) :
    ∃ u us, ts = u :: us ++ tp := by
  generalize hq : a ++ '}' :: p = q at h
  induction h generalizing a with
  | nil => simp at hq
  | @lit c q ts hc h ih =>
    cases a with
    | nil =>
      cases hq
      exact ⟨.lit '}', [], by rw [h.unique hp]; rfl⟩
    | cons y a =>
      rw [List.cons_append, List.cons.injEq] at hq
      obtain ⟨u, us, rfl⟩ := ih (fun h => ha (List.mem_cons_of_mem y h)) hq.2
      exact ⟨_, u :: us, rfl⟩
  | escape _ ih =>
    cases a with
    | nil => cases hq
    | cons y a =>
      rw [List.cons_append, List.cons.injEq] at hq
      obtain ⟨u, us, rfl⟩ := ih (fun h => ha (List.mem_cons_of_mem y h)) hq.2
      exact ⟨_, u :: us, rfl⟩
  | plain hx _ _ ih =>
    match a with
    | [] => cases hq
    | [y] =>
      cases hq
      exact absurd hx (by decide)
    | y :: z :: a =>
      simp only [List.cons_append, List.cons.injEq] at hq
      simp only [List.mem_cons, not_or] at ha
      obtain ⟨u, us, rfl⟩ := ih ha.2.2 hq.2.2
      exact ⟨_, u :: us, rfl⟩
  | @arg x b q ts hx hb h ih =>
    match a with
    | [] | [y, z] => cases hq
    | [y] =>
      cases hq
      exact absurd hx (by decide)
    | y :: z :: o :: a =>
      simp only [List.cons_append, List.cons.injEq] at hq
      simp only [List.mem_cons, not_or] at ha
      obtain ⟨rfl, rfl⟩ := split_unique ha.2.2.2 hb hq.2.2.2
      exact ⟨_, [], by rw [h.unique hp]; rfl⟩

/-! ### What no date renders -/

/-- The text of `char buf[64]`; `junk` is what it holds when `strftime` had no room. -/
def dateText (strftime junk : String → UInt64 → String) (fmt : String) (t : UInt64) : String :=
  if (strftime fmt t).utf8ByteSize < 64 then strftime fmt t else junk fmt t

/-- What `strftime` promises of a time `t`, as far as it is needed here. -/
structure Documented (strftime : String → UInt64 → String) (t : UInt64) : Prop where
  ordinary : '%' ∉ fmt.toList → strftime fmt t = fmt
  conversion : '%' ∉ w → c ∈ ['%', 'n', 'T', 'd', 'Y'] →
    ∃ z l, (strftime (String.ofList (w ++ '%' :: c :: r)) t).toList = w ++ z :: l ∧
      (z = '%' ∨ z = '\n' ∨ z = '-' ∨ z.isDigit)

theorem prefix_period {w s l : List Char} (h : w ++ z :: l = x :: y :: (w ++ s)) :
    z = x ∨ z = y := by
  induction w generalizing x y with
  | nil =>
    cases h
    exact .inl rfl
  | cons c w ih =>
    rw [List.cons_append, List.cons.injEq] at h
    obtain ⟨rfl, h⟩ := h
    exact (ih h).symm

/-- Two events of one time, of which the second one renders longer. -/
def shortEvent (t : UInt64) : LogEvent := ⟨"", 0, 0, 0, 0, t, "", "", 0, .info⟩

def longEvent (t : UInt64) : LogEvent := ⟨"x", 10, 10, 10, 10, t, "x", "x", 1, .debug⟩

/-- What the directives other than the date render for them. -/
def texts : Char → String × String
  | 'm' | 'c' | 'f' | 'N' => ("", "x")
  | 'p' => ("INFO", "DEBUG")
  | 'n' => ("\n", "\n")
  | 'T' => ("\t", "\t")
  | _ => ("0", "10")

/-- The names of their loggers, and no junk. -/
def quietEnv (strftime : String → UInt64 → String) : FormatEnv :=
  ⟨dateText strftime fun _ _ => "", fun logger => if logger = 0 then "" else "x"⟩

section
variable {strftime : String → UInt64 → String} {t : UInt64}

theorem dateText_eq (h : dateText strftime (fun _ _ => "") fmt t ≠ "") :
    dateText strftime (fun _ _ => "") fmt t = strftime fmt t := by
  simp only [dateText] at h ⊢
  split
  · rfl
  · rename_i hlong
    exact absurd (if_neg hlong) h

theorem toString_zero : toString (0 : UInt32) = "0" := rfl

theorem toString_ten : toString (10 : UInt32) = "10" := rfl

theorem render_short (hx : x ∈ directives) (hd : x ≠ 'd') (arg : Option String) :
    (Token.directive x arg).render (quietEnv strftime) .info (shortEvent t) =
      (texts x).1.toList := by
  simp only [directives, List.mem_cons, List.not_mem_nil, or_false] at hx
  rcases hx with rfl | rfl | rfl | rfl | rfl | rfl | rfl | rfl | rfl | rfl | rfl | rfl
  all_goals
    first
    | exact congrArg String.toList toString_zero
    | rfl
    | exact absurd rfl hd

theorem render_long (hx : x ∈ directives) (hd : x ≠ 'd') (arg : Option String) :
    (Token.directive x arg).render (quietEnv strftime) .debug (longEvent t) =
      (texts x).2.toList := by
  simp only [directives, List.mem_cons, List.not_mem_nil, or_false] at hx
  rcases hx with rfl | rfl | rfl | rfl | rfl | rfl | rfl | rfl | rfl | rfl | rfl | rfl
  all_goals
    first
    | exact congrArg String.toList toString_ten
    | rfl
    | exact absurd rfl hd

theorem render_length {u : Token} (hu : ∀ x arg, u = .directive x arg → x ∈ directives) :
    (u.render (quietEnv strftime) .info (shortEvent t)).length ≤
      (u.render (quietEnv strftime) .debug (longEvent t)).length := by
  cases u with
  | lit c => exact Nat.le_refl _
  | directive x arg =>
    have hx := hu x arg rfl
    by_cases hd : x = 'd'
    · subst hd
      exact Nat.le_refl _
    · rw [render_short hx hd, render_long hx hd]
      have hle : directives.all (fun x =>
          (texts x).1.toList.length ≤ (texts x).2.toList.length) = true := by decide
      exact of_decide_eq_true (List.all_eq_true.1 hle x hx)

theorem render_head (hx : x ∈ directives) (hd : x ≠ 'd') (arg : Option String) :
    ((Token.directive x arg).render (quietEnv strftime) .info (shortEvent t)).head? ≠ some x := by
  have hhead : directives.all (fun x => (texts x).1.toList.head? ≠ some x) = true := by decide
  rw [render_short hx hd]
  exact of_decide_eq_true (List.all_eq_true.1 hhead x hx)

theorem render_varies (strftime : String → UInt64 → String) (t : UInt64) (hx : x ∈ directives)
    (hfixed : x ∉ ['%', 'n', 'T', 'd', 'Y']) (arg : Option String) :
    ((Token.directive x arg).render (quietEnv strftime) .info (shortEvent t)).length <
      ((Token.directive x arg).render (quietEnv strftime) .debug (longEvent t)).length := by
  have hlt : directives.all (fun x => x ∉ ['%', 'n', 'T', 'd', 'Y'] →
      (texts x).1.toList.length < (texts x).2.toList.length) = true := by decide
  have hd : x ≠ 'd' := by rintro rfl; exact hfixed (by decide)
  rw [render_short hx hd, render_long hx hd]
  exact of_decide_eq_true (List.all_eq_true.1 hlt x hx) hfixed

theorem Tokens.mem_directives (h : Tokens q ts) (hx : .directive x fmt ∈ ts) :
    x ∈ directives := by
  induction h with
  | nil => cases hx
  | lit _ _ ih | escape _ ih =>
    rcases List.mem_cons.1 hx with hx | hx
    · cases hx
    · exact ih hx
  | plain hdir _ _ ih | arg hdir _ _ ih =>
    rcases List.mem_cons.1 hx with hx | hx
    · cases hx
      exact hdir
    · exact ih hx

/-- The date that `%d` renders is not the text `d`. -/
theorem date_default (hdoc : Documented strftime t) (level : LogLevel) (event : LogEvent)
    (ht : event.mTime = t) (harg : arg.getD "" = "") :
    ((Token.directive 'd' arg).render (quietEnv strftime) level event).head? ≠ some 'd' := by
  intro h
  rw [Token.render, harg] at h
  change (dateText strftime (fun _ _ => "") "%Y-%m-%d %H:%M:%S" event.mTime).toList.head? =
    some 'd' at h
  rw [dateText_eq (by rintro he; rw [he] at h; cases h), ht] at h
  obtain ⟨z, l, htext, hz⟩ :=
    hdoc.conversion (w := []) (c := 'Y') (r := "-%m-%d %H:%M:%S".toList) List.not_mem_nil
      (by decide)
  have hfmt : String.ofList ([] ++ '%' :: 'Y' :: "-%m-%d %H:%M:%S".toList) =
      "%Y-%m-%d %H:%M:%S" := by
    decide
  rw [hfmt] at htext
  rw [htext] at h
  cases h
  revert hz
  decide

theorem render_lits (w : List Char) (env : FormatEnv) (level : LogLevel) (event : LogEvent) :
    (w.map Token.lit).flatMap (Token.render env level event) = w := by
  induction w with
  | nil => rfl
  | cons c w ih =>
    rw [List.map_cons, List.flatMap_cons, ih]
    rfl

theorem render_date (hne : '%' ∈ a ∨ a ≠ []) (ht : event.mTime = t)
    (h : (Token.directive 'd' (some (String.ofList a))).render (quietEnv strftime) level event =
      c :: l) : (strftime (String.ofList a) t).toList = c :: l := by
  have hfmt : String.ofList a ≠ "" := by
    intro he
    have ha : a = [] := String.ofList_injective he
    subst ha
    simp at hne
  simp only [Token.render, Option.getD_some, itemOf, FormatItem.newDateTime, hfmt, if_false,
    FormatItem.format, ht] at h
  change (dateText strftime (fun _ _ => "") _ t).toList = c :: l at h
  rwa [dateText_eq (by rintro he; rw [he] at h; cases h)] at h

/-- What stands behind a percent sign in a text that a brace closes. -/
theorem Tokens.percent_closed (h : Tokens ('%' :: (r ++ '}' :: p)) (u :: us)) :
    ∃ c r', r = c :: r' ∧ (c = '%' ∨ c ∈ directives ∧ ∃ fmt, u = .directive c fmt) := by
  have hfirst {x : Char} {q : List Char} (hx : x ∈ '%' :: directives)
      (hq : r ++ '}' :: p = x :: q) : ∃ r', r = x :: r' := by
    cases r with
    | nil =>
      cases hq
      exact absurd hx (by decide)
    | cons c r =>
      rw [List.cons_append, List.cons.injEq] at hq
      exact ⟨r, by rw [hq.1]⟩
  obtain ⟨q, ts', hq, hu, -⟩ | ⟨x, q, ts', hx, -, hq, hu, -⟩ | ⟨x, a, q, ts', hx, -, hq, hu, -⟩ :=
    h.percent_cases
  · obtain ⟨r', rfl⟩ := hfirst List.mem_cons_self hq
    exact ⟨_, r', rfl, .inl rfl⟩
  · obtain ⟨r', rfl⟩ := hfirst (List.mem_cons_of_mem _ hx) hq
    cases hu
    exact ⟨x, r', rfl, .inr ⟨hx, _, rfl⟩⟩
  · obtain ⟨r', rfl⟩ := hfirst (List.mem_cons_of_mem _ hx) hq
    cases hu
    exact ⟨x, r', rfl, .inr ⟨hx, _, rfl⟩⟩

theorem render_le (strftime : String → UInt64 → String) (t : UInt64) {us : List Token}
    (hus : ∀ x fmt, .directive x fmt ∈ us → x ∈ directives) :
    (us.flatMap (Token.render (quietEnv strftime) .info (shortEvent t))).length ≤
      (us.flatMap (Token.render (quietEnv strftime) .debug (longEvent t))).length := by
  rw [List.length_flatMap, List.length_flatMap]
  apply List.sum_le_sum
  intro u hu
  exact render_length fun x fmt hux => hus x fmt (hux ▸ hu)

/-- The date that `%d{a}` renders is not the text `d{a}`. -/
theorem date_arg (hdoc : Documented strftime t) (ha : '}' ∉ a)
    (h : Tokens (a ++ '}' :: p) (us ++ tp)) (hp : Tokens p tp)
    (heq : ∀ level event, event.mTime = t →
      (Token.directive 'd' (some (String.ofList a))).render (quietEnv strftime) level event =
        'd' :: '{' :: us.flatMap (Token.render (quietEnv strftime) level event)) : False := by
  have hshort := heq .info (shortEvent t) rfl
  by_cases hpct : '%' ∈ a
  · obtain ⟨w, r, rfl, hw⟩ := List.eq_append_cons_of_mem hpct
    have hr : '}' ∉ '%' :: r := fun h => ha (List.mem_append_right w h)
    rw [List.append_assoc] at h
    obtain ⟨ts, hts, hrest⟩ := h.of_lits hw
    obtain ⟨u, us', rfl⟩ := hrest.of_closed hr hp
    rw [← List.append_assoc, List.append_cancel_right_eq] at hts
    subst hts
    obtain ⟨c, r', rfl, hc⟩ := hrest.percent_closed
    have hdate := render_date (t := t) (.inl hpct) rfl hshort
    by_cases hfixed : c ∈ ['%', 'n', 'T', 'd', 'Y']
    · obtain ⟨z, l, htext, hz⟩ := hdoc.conversion (r := r') hw hfixed
      rw [htext, List.flatMap_append, render_lits] at hdate
      obtain rfl | rfl := prefix_period hdate
      all_goals
        revert hz
        decide
    · rcases hc with rfl | ⟨hc, fmt, rfl⟩
      · exact hfixed List.mem_cons_self
      · -- the text varies with the event, and the date does not
        have hlong := heq .debug (longEvent t) rfl
        have hlen := congrArg List.length (hshort.symm.trans hlong)
        simp only [List.length_cons, List.flatMap_append, List.flatMap_cons, render_lits,
          List.length_append] at hlen
        have hlt := render_varies strftime t hc hfixed fmt
        have hle : ∀ x fmt, Token.directive x fmt ∈ us' → x ∈ directives := fun x fmt hx =>
          hrest.mem_directives (List.mem_append_left tp (List.mem_cons_of_mem _ hx))
        have := render_le strftime t hle
        omega
  · by_cases hnil : a = []
    · refine date_default hdoc .info (shortEvent t) rfl ?_ (congrArg List.head? hshort)
      rw [hnil]
      rfl
    · obtain ⟨ts, hts, hrest⟩ := h.of_lits hpct
      obtain ⟨ts', rfl, hp'⟩ := hrest.of_lit (by decide)
      rw [hp'.unique hp, List.append_cons, List.append_cancel_right_eq] at hts
      have hdate := render_date (t := t) (.inr hnil) rfl hshort
      have htext : strftime (String.ofList a) t = String.ofList a :=
        hdoc.ordinary (by rwa [String.toList_ofList])
      rw [htext, String.toList_ofList, hts, List.flatMap_append, render_lits] at hdate
      have hlen := congrArg List.length hdate
      simp only [List.length_cons, List.length_append] at hlen
      omega

end

/-- The percent sign that an escape leaves behind is read with `b`, and never renders what `b`
renders. -/
theorem Tokens.percent_ne {strftime : String → UInt64 → String} (hdoc : Documented strftime t)
    (h : Tokens ('%' :: b) ts) (hb : Tokens b tb)
    (heq : ∀ level event, ts.flatMap (Token.render (quietEnv strftime) level event) =
      tb.flatMap (Token.render (quietEnv strftime) level event)) : False := by
  have hshort := heq .info (shortEvent t)
  obtain ⟨p, tp, rfl, rfl, hp⟩ | ⟨x, p, tp, hx, hends, rfl, rfl, hp⟩ |
      ⟨x, a, p, tp, hx, ha, rfl, rfl, hp⟩ := h.percent_cases
  · rw [hp.unique hb] at hshort
    have hlen := congrArg List.length hshort
    simp only [List.flatMap_cons, List.length_append, Token.render, List.length_singleton] at hlen
    omega
  · have hlit : x ≠ '%' := by rintro rfl; exact absurd hx (by decide)
    obtain ⟨tp', rfl, hp'⟩ := hb.of_lit hlit
    rw [hp'.unique hp, List.flatMap_cons, List.flatMap_cons, List.append_cancel_right_eq] at hshort
    have hhead : _ = some x := congrArg List.head? hshort
    by_cases hd : x = 'd'
    · subst hd
      exact date_default hdoc _ _ rfl rfl hhead
    · exact render_head hx hd none hhead
  · have hlit : x ≠ '%' := by rintro rfl; exact absurd hx (by decide)
    obtain ⟨tb', rfl, hb'⟩ := hb.of_lit hlit
    obtain ⟨tb, rfl, hrest⟩ := hb'.of_lit (by decide)
    obtain ⟨u, us, rfl⟩ := hrest.of_closed ha hp
    have hcancel (level : LogLevel) (event : LogEvent) :
        (Token.directive x (some (String.ofList a))).render (quietEnv strftime) level event =
          x :: '{' :: (u :: us).flatMap (Token.render (quietEnv strftime) level event) := by
      have := heq level event
      rw [List.flatMap_cons, List.flatMap_cons, List.flatMap_cons, List.flatMap_append,
        ← List.append_assoc, ← List.append_assoc, List.append_cancel_right_eq] at this
      exact this
    by_cases hd : x = 'd'
    · subst hd
      exact date_arg hdoc ha hrest hp fun level event _ => hcancel level event
    · exact render_head hx hd _ (congrArg List.head? (hcancel .info (shortEvent t)))

/-- No two accepted patterns give what an escape between them should give. -/
theorem escape_never {strftime : String → UInt64 → String} {a b : String}
    (hdoc : Documented strftime t) (ha : (new a).isError = false) (hb : (new b).isError = false) :
    ¬ ((new (a ++ "%%" ++ b)).isError = false ∧ ∀ junk getName level event,
      (new (a ++ "%%" ++ b)).format ⟨dateText strftime junk, getName⟩ level event =
        (new a).format ⟨dateText strftime junk, getName⟩ level event ++ "%" ++
          (new b).format ⟨dateText strftime junk, getName⟩ level event) := by
  rintro ⟨hab, hformat⟩
  obtain ⟨ta, hta⟩ := (new_isError_iff a).1 ha
  obtain ⟨tb, htb⟩ := (new_isError_iff b).1 hb
  obtain ⟨ts, hts⟩ := (new_isError_iff (a ++ "%%" ++ b)).1 hab
  have htext : (a ++ "%%" ++ b).toList = a.toList ++ '%' :: '%' :: b.toList := by
    have hpct : "%%".toList = ['%', '%'] := by decide
    rw [String.toList_append, String.toList_append, hpct, List.append_assoc]
    rfl
  have hread := hts
  rw [htext] at hread
  obtain ⟨ts', rfl, hescape⟩ := hta.append hread
  obtain ⟨tq, rfl, hq⟩ := hescape.of_escape
  refine hq.percent_ne hdoc htb fun level event => ?_
  have h := congrArg String.toList (hformat (fun _ _ => "") (quietEnv strftime).getName level event)
  rw [String.toList_append, String.toList_append, format_tokens _ _ _ hts, format_tokens _ _ _ hta,
    format_tokens _ _ _ htb, List.flatMap_append, List.flatMap_cons, List.append_assoc,
    List.append_cancel_left_eq] at h
  exact (List.cons.inj h).2

/-- A `strftime` for the first second of 1970. -/
def epochConversion : Char → List Char
  | 'Y' => ['1', '9', '7', '0']
  | 'm' | 'd' => ['0', '1']
  | 'H' | 'M' | 'S' => ['0', '0']
  | 'T' => ['0', '0', ':', '0', '0', ':', '0', '0']
  | 'n' => ['\n']
  | '%' => ['%']
  | c => ['%', c]

def epochChars : List Char → List Char
  | '%' :: c :: r => epochConversion c ++ epochChars r
  | c :: r => c :: epochChars r
  | [] => []

def epochText (fmt : String) (_ : UInt64) : String := String.ofList (epochChars fmt.toList)

theorem epochChars_append {w : List Char} (hw : '%' ∉ w) (r : List Char) :
    epochChars (w ++ r) = w ++ epochChars r := by
  induction w with
  | nil => rfl
  | cons c w ih =>
    rw [List.mem_cons, not_or] at hw
    rw [List.cons_append, epochChars, ih hw.2]
    · rfl
    · rintro c' r' rfl
      exact absurd rfl hw.1

theorem epochText_documented : Documented epochText 0 where
  ordinary {fmt} hfmt := by
    have h := epochChars_append hfmt []
    rw [List.append_nil, epochChars, List.append_nil] at h
    rw [epochText, h, String.ofList_toList]
  conversion {w c r} hw hc := by
    have hfirst : ∀ c ∈ ['%', 'n', 'T', 'd', 'Y'], ∃ z l, epochConversion c = z :: l ∧
        (z = '%' ∨ z = '\n' ∨ z = '-' ∨ z.isDigit) := by
      simp [epochConversion]
    obtain ⟨z, l, hconv, hz⟩ := hfirst c hc
    refine ⟨z, l ++ epochChars r, ?_, hz⟩
    rw [epochText, String.toList_ofList, String.toList_ofList, epochChars_append hw, epochChars,
      hconv]
    rfl

theorem new_empty : Tokens "".toList [] := .nil

theorem new_n : Tokens "n".toList [.lit 'n'] := .lit (by decide) .nil

theorem new_escape_n : Tokens "%%n".toList [.lit '%', .directive 'n' none] :=
  .escape (.plain (by decide) (by decide) .nil)

theorem escape_never_n : ¬ ((new ("" ++ "%%" ++ "n")).isError = false ∧
    ∀ junk getName level event,
      (new ("" ++ "%%" ++ "n")).format ⟨dateText epochText junk, getName⟩ level event =
        (new "").format ⟨dateText epochText junk, getName⟩ level event ++ "%" ++
          (new "n").format ⟨dateText epochText junk, getName⟩ level event) :=
  escape_never epochText_documented (new_of_tokens new_empty).1 (new_of_tokens new_n).1

/-- Before an `n` the escape renders as a percent sign and a line feed, and at the end of the
pattern it is an error. -/
theorem escape_not_percent : (new "").isError = false ∧ (new "n").isError = false ∧
    (new ("" ++ "%%" ++ "n")).format (quietEnv epochText) .info (shortEvent 0) = "%\n" ∧
    (new "").format (quietEnv epochText) .info (shortEvent 0) ++ "%" ++
      (new "n").format (quietEnv epochText) .info (shortEvent 0) = "%n" ∧
    (new ("" ++ "%%" ++ "")).isError = true := by
  have hn := format_tokens (quietEnv epochText) .info (shortEvent 0) new_n
  have hempty := format_tokens (quietEnv epochText) .info (shortEvent 0) new_empty
  have hescape := format_tokens (quietEnv epochText) .info (shortEvent 0) new_escape_n
  refine ⟨(new_of_tokens new_empty).1, (new_of_tokens new_n).1, String.toList_injective ?_,
    String.toList_injective ?_, ?_⟩
  · exact hescape
  · rw [String.toList_append, String.toList_append, hn, hempty]
    decide
  · rw [← Bool.not_eq_false, new_isError_iff]
    rintro ⟨ts, h⟩
    obtain ⟨ts', rfl, hrest⟩ := Tokens.of_escape (q := []) h
    cases hrest with
    | lit hc => exact hc rfl

end LogFormatter
end SvrFrame
