import Mathlib.Data.List.Flatten
import OpenPlc.Lib.Pieces
import OpenPlc.Lib.Run
import OpenPlc.Net.Reassembly

/-! What is reassembled is what was sent, in whatever order the fragments of how many datagrams come. -/
namespace OpenPlc.Net.Reassembly
open Pieces

abbrev Before := Pieces.Before Piece.start Piece.stop
abbrev Apart := Pieces.Apart Piece.start Piece.stop
abbrev Ordered := Pieces.Ordered Piece.start Piece.stop
abbrev Abut := Pieces.Abut Piece.start Piece.stop

/-- The key of a datagram: source, destination and id -/
def Header.key (h : Header) : Nat × Nat × Nat := (h.src,h.dest,h.id)

theorem matches_iff_key (a b : Header) : a.matches b = true ↔ a.key = b.key := by
  simp [Header.matches,Header.key,and_assoc]

section Chain
variable {new : Piece} {pieces front back onward : List Piece} {prev : Option Piece} {valid : Bool}

theorem noHoles_cons (a b : Piece) (rest : List Piece) :
    noHoles (a :: b :: rest) = (decide (a.stop = b.start) && noHoles (b :: rest)) := rfl

theorem noHoles_split (front : List Piece) (new : Piece) (back : List Piece) :
    noHoles (front ++ new :: back) = (noHoles (front ++ [new]) && noHoles (new :: back)) := by
  induction front with
  | nil => rfl
  | cons a front ih =>
    cases front with
    | nil => simp [noHoles]
    | cons b front =>
      rw [List.cons_append,List.cons_append,noHoles_cons,← List.cons_append,ih]
      simp [noHoles_cons,Bool.and_assoc]

theorem abut_iff (a : Piece) (rest : List Piece) : Abut 0 (a :: rest) ↔ a.start = 0 ∧ noHoles (a :: rest) = true := by
  suffices step : ∀ n, Abut n (a :: rest) ↔ a.start = n ∧ noHoles (a :: rest) = true from step 0
  induction rest generalizing a with
  | nil => simp [Pieces.Abut,noHoles]
  | cons b rest ih =>
    intro n
    change a.start = n ∧ Abut a.stop (b :: rest) ↔ _
    rw [ih,noHoles_cons,Bool.and_eq_true,decide_eq_true_eq,eq_comm (a := b.start)]

theorem follows_eq (valid : Bool) (prev : Option Piece) (next : Piece) :
    follows valid prev next = (valid && noHoles (prev.toList ++ [next])) := by
  cases prev <;> simp [follows,noHoles]

/-- The new piece comes between the pieces before it and those behind it, if it meets none of them. -/
theorem chainUpTo_spec (prev : Option Piece) (valid : Bool) (ordered : Ordered pieces)
    (forwards : ∀ q ∈ pieces, q.start ≤ q.stop) (behind : ∀ q ∈ prev, Before q new) (forward : new.start ≤ new.stop) :
    (∃ front back, pieces = front ++ back ∧ (∀ q ∈ front, Before q new) ∧ (∀ q ∈ back, Before new q) ∧
        chainUpTo new prev valid pieces =
          some (front ++ new :: back,new :: back,valid && noHoles (prev.toList ++ (front ++ [new])))) ∨
      (∃ q ∈ pieces, ¬ Apart new q) ∧ chainUpTo new prev valid pieces = none := by
  induction pieces generalizing prev valid with
  | nil =>
    left
    refine ⟨[],[],rfl,nofun,nofun,?_⟩
    rw [chainUpTo,List.nil_append,follows_eq]
  | cons q rest ih =>
    obtain ⟨ahead,onward⟩ := List.pairwise_cons.mp ordered
    have own := forwards q List.mem_cons_self
    rw [chainUpTo]
    by_cases here : new.start < q.start
    · rw [if_pos here]
      by_cases overlaps : q.start < new.stop
      · right
        have met : ¬ Apart new q := fun apart => by
          rcases apart.2 with low | high <;> omega
        exact ⟨⟨q,List.mem_cons_self,met⟩,if_pos (.inr overlaps)⟩
      · left
        have next : Before new q := ⟨here,Nat.not_lt.mp overlaps⟩
        refine ⟨[],q :: rest,rfl,nofun,?_,?_⟩
        · intro r member
          rcases List.mem_cons.mp member with rfl | later
          · exact next
          · have := (ahead r later).1
            exact ⟨by omega,by omega⟩
        · have clear : ¬ (prev.any fun prev => new.start < prev.stop) = true := by
            cases prev with
            | none => exact Bool.false_ne_true
            | some prev => simpa using (behind prev rfl).2
          rw [if_neg (not_or.mpr ⟨clear,overlaps⟩),List.nil_append,List.nil_append,follows_eq]
    · rw [if_neg here]
      by_cases same : new.start = q.start
      · right
        exact ⟨⟨q,List.mem_cons_self,fun apart => apart.1 same⟩,if_pos same⟩
      · rw [if_neg same]
        by_cases within : new.start < q.stop
        · right
          have met : ¬ Apart new q := fun apart => by
            rcases apart.2 with low | high <;> omega
          exact ⟨⟨q,List.mem_cons_self,met⟩,if_pos within⟩
        · rw [if_neg within]
          have before : Before q new := ⟨by omega,Nat.not_lt.mp within⟩
          have later := ih (some q) (follows valid prev q) onward (fun r member => forwards r (List.mem_cons_of_mem q member))
            (fun r member => Option.mem_some_iff.mp member ▸ before)
          rcases later with ⟨front,back,rfl,below,above,found⟩ | ⟨⟨r,member,met⟩,dropped⟩
          · left
            refine ⟨q :: front,back,rfl,?_,above,?_⟩
            · intro r member
              rcases List.mem_cons.mp member with rfl | later
              · exact before
              · exact below r later
            · rw [found]
              simp only [Option.map_some,follows_eq,Option.toList_some,List.cons_append,List.nil_append,Bool.and_assoc]
              rw [noHoles_split prev.toList q (front ++ [new])]
          · right
            refine ⟨⟨r,List.mem_cons_of_mem q member,met⟩,?_⟩
            rw [dropped]
            rfl

theorem noHoles_abut (ordered : Ordered pieces) (some_ : pieces ≠ []) :
    (decide (pieces.head?.map Piece.start = some 0) && noHoles pieces) = decide (Abut 0 pieces) := by
  cases pieces with
  | nil => exact absurd rfl some_
  | cons a rest =>
    rw [Bool.eq_iff_iff,Bool.and_eq_true,decide_eq_true_eq,decide_eq_true_eq,abut_iff]
    simp

def Fragment.piece (f : Fragment) : Piece :=
  ⟨f.header.offsetBytes,f.header.offsetBytes + (payload f.pbufs).length,f.pbufs⟩

theorem Fragment.length (f : Fragment) : f.header.len - f.header.hlen = (payload f.pbufs).length := by
  have filled := f.filled
  omega

theorem Fragment.offsetBytes (f : Fragment) : f.header.offsetBytes = f.header.offset * 8 := by
  have fits := f.offsetFits
  rw [Header.offsetBytes]
  omega

theorem chainFragAndValidate_eq (ipr : Reassdata) (f : Fragment) (isLast : Bool) :
    chainFragAndValidate ipr f isLast =
      if f.piece.stop < 65536 then
        (chainUpTo f.piece none true ipr.p).map fun (p,onward,valid) =>
          ({ipr with p := p},(isLast || ipr.lastFrag) && valid && (p.head?.map Piece.start = some 0) && noHoles onward)
      else none := by
  have filled := f.filled
  have lenFits := f.lenFits
  have offsetFits := f.offsetFits
  have offset := f.offsetBytes
  have stop : f.piece.stop = f.header.offsetBytes + (payload f.pbufs).length := rfl
  unfold chainFragAndValidate
  rw [if_neg (by omega)]
  dsimp only
  rw [f.length]
  by_cases fits : f.piece.stop < 65536
  · rw [if_pos fits,if_neg (by omega),Nat.mod_eq_of_lt (by omega)]
    rfl
  · rw [if_neg fits,if_pos (by omega)]

theorem chainFragAndValidate_spec (ipr : Reassdata) (f : Fragment) (isLast : Bool) (ordered : Ordered ipr.p)
    (forwards : ∀ q ∈ ipr.p, q.start ≤ q.stop) :
    (f.piece.stop < 65536 ∧ (∀ q ∈ ipr.p, Apart f.piece q) ∧ ∃ p, p.Perm (f.piece :: ipr.p) ∧ Ordered p ∧
        chainFragAndValidate ipr f isLast = some ({ipr with p := p},decide ((isLast || ipr.lastFrag) = true ∧ Abut 0 p))) ∨
      ¬ (f.piece.stop < 65536 ∧ ∀ q ∈ ipr.p, Apart f.piece q) ∧ chainFragAndValidate ipr f isLast = none := by
  rw [chainFragAndValidate_eq]
  by_cases fits : f.piece.stop < 65536
  · rw [if_pos fits]
    rcases chainUpTo_spec none true ordered forwards nofun (Nat.le_add_right _ _ : f.piece.start ≤ f.piece.stop) with
      ⟨front,back,same,below,above,found⟩ | ⟨⟨q,member,met⟩,dropped⟩
    · left
      have apart : ∀ q ∈ ipr.p, Apart f.piece q := by
        intro q member
        rw [same] at member
        rcases List.mem_append.mp member with low | high
        · exact (below q low).apart.symm
        · exact (above q high).apart
      have sorted : Ordered (front ++ f.piece :: back) := by
        have parts : Ordered (front ++ back) := same ▸ ordered
        obtain ⟨low,high,across⟩ := List.pairwise_append.mp parts
        refine List.pairwise_append.mpr ⟨low,List.pairwise_cons.mpr ⟨above,high⟩,?_⟩
        intro a member b later
        rcases List.mem_cons.mp later with rfl | later
        · exact below a member
        · exact across a member b later
      refine ⟨fits,apart,front ++ f.piece :: back,?_,sorted,?_⟩
      · rw [same]
        exact List.perm_middle
      · have abut := noHoles_abut sorted (by simp)
        rw [noHoles_split] at abut
        simp only [found,Option.map_some,Option.toList_none,List.nil_append,Bool.true_and,Bool.decide_and,Bool.decide_eq_true,
          ← abut]
        congr 2
        rw [Bool.and_assoc,Bool.and_assoc,Bool.and_left_comm (noHoles (front ++ [f.piece]))]
    · right
      exact ⟨fun both => met (both.2 q member),by rw [dropped]; rfl⟩
  · rw [if_neg fits]
    exact .inr ⟨fun both => fits both.1,rfl⟩

end Chain

/-- A fragment of these bytes -/
structure FragmentOf (whole : List UInt8) (f : Fragment) : Prop where
  inside : f.piece.stop ≤ whole.length
  data : payload f.pbufs = slice whole f.piece.start f.piece.stop
  more : f.header.moreFragments = decide (f.piece.stop < whole.length)

/-- What is there of these bytes. -/
structure Partial (whole : List UInt8) (r : Reassdata) : Prop where
  own : ∀ b ∈ r.p, b.start ≤ b.stop ∧ b.stop ≤ whole.length ∧ payload b.pbufs = slice whole b.start b.stop
  ordered : Ordered r.p
  last : r.lastFrag = true ↔ ∃ b ∈ r.p, b.stop = whole.length
  datagramLen : r.lastFrag = true → r.datagramLen = whole.length ∧ whole.length ≤ 65515
  first : (∃ b ∈ r.p, b.start = 0) → r.iphdr.offset = 0
  timer : r.timer ≤ reassMaxage

def Unfinished (r : Reassdata) : Prop := ¬ (r.lastFrag = true ∧ Abut 0 r.p)

def queued (datagrams : List Reassdata) : List Pbuf := datagrams.flatMap Reassdata.pbufs

/-- The pbufs that are not passed on -/
def held (s : Reass) : List Pbuf := s.freed ++ queued s.reassdatagrams

section Stored
variable (whole : Nat × Nat × Nat → List UInt8) (received : List Fragment)

structure Waits (r : Reassdata) : Prop extends Partial (whole r.iphdr.key) r where
  header : ∃ f ∈ received, f.header = r.iphdr
  some_ : r.p ≠ []
  lacks : Unfinished r

structure Core (s : Reass) : Prop where
  waits : ∀ r ∈ s.reassdatagrams, Waits whole received r
  keys : (s.reassdatagrams.map fun r => r.iphdr.key).Nodup
  few : s.reassdatagrams.length ≤ numReassdata
  count : s.pbufcount = (queued s.reassdatagrams).length
  room : s.pbufcount ≤ reassMaxPbufs

/-- A datagram passed on has the header of its first fragment. -/
def Delivered (packet : Header × List Pbuf) : Prop :=
  ∃ f ∈ received, f.header.offset = 0 ∧ payload packet.2 = whole f.header.key ∧
    packet.1 = {f.header with
      len := (whole f.header.key).length + ipHlen, reserved := false, dontFragment := false, moreFragments := false, offset := 0,
      chksum := 0}

end Stored

section Thinning
variable {whole : Nat × Nat × Nat → List UInt8} {received : List Fragment} {s s' s'' : Reass}

/-- Datagrams are given up. -/
structure Thinner (s s' : Reass) : Prop where
  sub : s'.reassdatagrams.Sublist s.reassdatagrams
  held : (held s').Perm (held s)
  count : s.pbufcount < 65536 → s.pbufcount = (queued s.reassdatagrams).length → s'.pbufcount = (queued s'.reassdatagrams).length

theorem Thinner.refl (s : Reass) : Thinner s s := ⟨List.Sublist.refl _,List.Perm.refl _,fun _ count => count⟩

theorem queued_sublist {few many : List Reassdata} (sub : few.Sublist many) : (queued few).Sublist (queued many) :=
  sub.flatMap _

theorem Thinner.trans (first : Thinner s s') (second : Thinner s' s'') : Thinner s s'' := by
  refine ⟨second.sub.trans first.sub,second.held.trans first.held,fun bound count => ?_⟩
  have still := first.count bound count
  have fewer := (queued_sublist first.sub).length_le
  exact second.count (by omega) still

theorem Core.thin (core : Core whole received s) (thinner : Thinner s s') : Core whole received s' := by
  have room := core.room
  have count := thinner.count (Nat.lt_of_le_of_lt room (by decide)) core.count
  have fewer := (queued_sublist thinner.sub).length_le
  have was := core.count
  exact ⟨fun r member => core.waits r (thinner.sub.subset member),(thinner.sub.map _).nodup core.keys,
    thinner.sub.length_le.trans core.few,count,by omega⟩

theorem queued_append (first second : List Reassdata) : queued (first ++ second) = queued first ++ queued second :=
  List.flatMap_append

theorem queued_cons (r : Reassdata) (rest : List Reassdata) : queued (r :: rest) = r.pbufs ++ queued rest := rfl

theorem freeAt_thin (i : Nat) (s : Reass) : Thinner s (freeAt i s).1 := by
  unfold freeAt
  split
  · exact Thinner.refl s
  case h_2 ipr found =>
    obtain ⟨bound,here⟩ := List.getElem?_eq_some_iff.mp found
    have split_ : s.reassdatagrams = s.reassdatagrams.take i ++ ipr :: s.reassdatagrams.drop (i + 1) := by
      rw [← here,List.getElem_cons_drop,List.take_append_drop]
    have left_ : s.reassdatagrams.eraseIdx i = s.reassdatagrams.take i ++ s.reassdatagrams.drop (i + 1) :=
      List.eraseIdx_eq_take_drop_succ ..
    refine ⟨List.eraseIdx_sublist _ _,?_,?_⟩
    · change ((s.freed ++ ipr.pbufs) ++ queued (s.reassdatagrams.eraseIdx i)).Perm (s.freed ++ queued s.reassdatagrams)
      conv_rhs => rw [split_]
      rw [left_,queued_append,queued_append,queued_cons,List.append_assoc]
      exact List.Perm.append_left _ (by simpa only [List.append_assoc] using (List.perm_append_comm_assoc _ _ _))
    · intro bound count
      change (s.pbufcount + 65536 - ipr.pbufs.length) % 65536 = (queued (s.reassdatagrams.eraseIdx i)).length
      rw [split_] at count
      simp only [queued_append,queued_cons,List.length_append] at count
      rw [left_,queued_append,List.length_append]
      omega

theorem removeOldestLoop_thin (fraghdr : Header) (needed fuel freed : Nat) (s : Reass) :
    Thinner s (removeOldestLoop fraghdr needed fuel freed s).1 := by
  induction fuel generalizing freed s with
  | zero => exact Thinner.refl s
  | succ fuel ih =>
    rw [removeOldestLoop]
    rcases oldest fraghdr s.reassdatagrams 0 none with _ | ⟨i,timer⟩
    · dsimp only
      split_ifs
      · exact ih freed s
      · exact Thinner.refl s
    · dsimp only
      split_ifs
      · exact (freeAt_thin i s).trans (ih _ _)
      · exact freeAt_thin i s

theorem makeRoom_thin (fraghdr : Header) (clen : Nat) (s : Reass) : Thinner s (makeRoom fraghdr clen s).1 := by
  unfold makeRoom
  split_ifs
  · exact removeOldestLoop_thin ..
  · exact Thinner.refl s

theorem makeRoom_room {fraghdr : Header} {clen : Nat} {s : Reass} (room : (makeRoom fraghdr clen s).2 = true) :
    (makeRoom fraghdr clen s).1.pbufcount + clen ≤ reassMaxPbufs := by
  unfold makeRoom at room ⊢
  split_ifs at room ⊢ with full
  · simpa using (of_decide_eq_true room).2
  · exact Nat.not_lt.mp full

end Thinning

section Tick
variable {whole : Nat × Nat × Nat → List UInt8} {received : List Fragment} {s : Reass}

/-- A second older -/
def older (r : Reassdata) : Reassdata := {r with timer := r.timer - 1}

theorem perm_insert {a b c d : List Pbuf} (x : List Pbuf) (same : (a ++ b).Perm (c ++ d)) :
    (a ++ (x ++ b)).Perm (c ++ (x ++ d)) :=
  (List.perm_append_comm_assoc a x b).trans ((same.append_left x).trans (List.perm_append_comm_assoc c x d).symm)

theorem ipReassTmr_loop (datagrams : List Reassdata) (s : Reass) (bound : s.pbufcount < 65536)
    (enough : (queued datagrams).length ≤ s.pbufcount) :
    let s' := datagrams.foldl (fun s r =>
      if 0 < r.timer then {s with reassdatagrams := s.reassdatagrams ++ [{r with timer := r.timer - 1}]}
      else freeCompleteDatagram r s) s
    let kept := datagrams.filter fun r => 0 < r.timer
    s'.reassdatagrams = s.reassdatagrams ++ kept.map older ∧ (s'.freed ++ queued kept).Perm (s.freed ++ queued datagrams) ∧
      s'.pbufcount + (queued datagrams).length = s.pbufcount + (queued kept).length := by
  induction datagrams generalizing s with
  | nil => exact ⟨(List.append_nil _).symm,List.Perm.refl _,rfl⟩
  | cons r rest ih =>
    rw [queued_cons,List.length_append] at enough
    simp only [List.foldl_cons]
    by_cases lives : 0 < r.timer
    · obtain ⟨list,perm,count⟩ := ih {s with reassdatagrams := s.reassdatagrams ++ [{r with timer := r.timer - 1}]} bound
        (by change _ ≤ s.pbufcount; omega)
      simp only [lives,if_true,List.filter_cons_of_pos,decide_true]
      refine ⟨?_,perm_insert r.pbufs perm,?_⟩
      · rw [list]
        simp [older]
      · simp only [queued_cons,List.length_append]
        change _ = s.pbufcount + _ at count
        omega
    · have less : (freeCompleteDatagram r s).pbufcount = s.pbufcount - r.pbufs.length := by
        change (s.pbufcount + 65536 - r.pbufs.length) % 65536 = _
        omega
      obtain ⟨list,perm,count⟩ := ih (freeCompleteDatagram r s) (by omega) (by omega)
      simp only [lives,if_false,decide_false,Bool.false_eq_true,not_false_eq_true,List.filter_cons_of_neg]
      refine ⟨list,?_,?_⟩
      · refine perm.trans ?_
        change ((s.freed ++ r.pbufs) ++ queued rest).Perm _
        rw [List.append_assoc,queued_cons]
      · rw [queued_cons,List.length_append]
        omega

theorem queued_older (datagrams : List Reassdata) : queued (datagrams.map older) = queued datagrams := by
  rw [queued,queued,List.flatMap_map]
  rfl

theorem Waits.older {r : Reassdata} (waits : Waits whole received r) : Waits whole received (older r) :=
  ⟨⟨waits.own,waits.ordered,waits.last,waits.datagramLen,waits.first,(Nat.sub_le _ _).trans waits.timer⟩,waits.header,waits.some_,
    waits.lacks⟩

theorem ipReassTmr_spec (core : Core whole received s) :
    Core whole received (ipReassTmr s) ∧ (held (ipReassTmr s)).Perm (held s) := by
  have room : s.pbufcount < 65536 := Nat.lt_of_le_of_lt core.room (by decide)
  obtain ⟨list,perm,count⟩ := ipReassTmr_loop s.reassdatagrams {s with reassdatagrams := []} room (Nat.le_of_eq core.count.symm)
  change (ipReassTmr s).reassdatagrams = _ at list
  change ((ipReassTmr s).freed ++ _).Perm _ at perm
  change (ipReassTmr s).pbufcount + _ = s.pbufcount + _ at count
  rw [List.nil_append] at list
  have sub := List.filter_sublist (p := fun r : Reassdata => decide (0 < r.timer)) (l := s.reassdatagrams)
  have fewer := (queued_sublist sub).length_le
  have was := core.count
  have most := core.room
  refine ⟨⟨?_,?_,?_,?_,?_⟩,?_⟩
  · intro r member
    rw [list] at member
    obtain ⟨before,among,rfl⟩ := List.mem_map.mp member
    exact (core.waits before (sub.subset among)).older
  · rw [list,List.map_map]
    exact (sub.map _).nodup core.keys
  · rw [list,List.length_map]
    exact sub.length_le.trans core.few
  · rw [list,queued_older]
    omega
  · omega
  · rw [held,list,queued_older]
    exact perm

end Tick

section Receive
variable {whole : Nat × Nat × Nat → List UInt8} {received : List Fragment} {s : Reass}

/-- The datagram of a fragment, found or new, between the others -/
structure Located (whole : Nat × Nat × Nat → List UInt8) (received : List Fragment) (f : Fragment) (s : Reass)
    (before : List Reassdata) (ipr : Reassdata) (after : List Reassdata) : Prop where
  list : s.reassdatagrams = before ++ ipr :: after
  key : ipr.iphdr.key = f.header.key
  partial_ : Partial (whole ipr.iphdr.key) ipr
  header : ∃ g ∈ received, g.header = ipr.iphdr
  adopted : f.header.offset = 0 → ipr.iphdr.offset = 0
  lacks : ipr.p ≠ [] → Unfinished ipr
  others : ∀ r ∈ before ++ after, Waits whole received r
  keys : (s.reassdatagrams.map fun r => r.iphdr.key).Nodup
  few : s.reassdatagrams.length ≤ numReassdata
  count : s.pbufcount = (queued s.reassdatagrams).length
  room : s.pbufcount + f.pbufs.length ≤ reassMaxPbufs

variable {f : Fragment} {before after : List Reassdata} {ipr : Reassdata}

theorem queued_middle (before : List Reassdata) (ipr : Reassdata) (after : List Reassdata) :
    (queued (before ++ ipr :: after)).Perm (ipr.pbufs ++ queued (before ++ after)) := by
  rw [queued_append,queued_cons,queued_append]
  exact List.perm_append_comm_assoc _ _ _

/-- The other datagrams stay as they are. -/
theorem Located.core_others (located : Located whole received f s before ipr after) (freed : List Pbuf) (timeExceeded : List Header)
    {pbufcount : Nat} (count : pbufcount = (queued (before ++ after)).length) :
    Core whole received ⟨before ++ after,pbufcount,freed,timeExceeded⟩ := by
  have keys := located.keys
  have few := located.few
  have room := located.room
  have was := located.count
  have middle := (queued_middle before ipr after).length_eq
  rw [located.list] at keys few was
  have fewer : (before ++ after).Sublist (before ++ ipr :: after) := List.Sublist.append_left (List.sublist_cons_self ..) _
  rw [List.length_append] at middle
  refine ⟨located.others,(fewer.map _).nodup keys,fewer.length_le.trans few,count,?_⟩
  change pbufcount ≤ _
  omega

/-- The datagram changes, and keeps its key. -/
theorem Located.core_set (located : Located whole received f s before ipr after) (freed : List Pbuf) (timeExceeded : List Header)
    {pbufcount : Nat} {next : Reassdata} (waits : Waits whole received next) (key : next.iphdr.key = ipr.iphdr.key)
    (count : pbufcount = (queued (before ++ next :: after)).length) (room : pbufcount ≤ reassMaxPbufs) :
    Core whole received ⟨before ++ next :: after,pbufcount,freed,timeExceeded⟩ := by
  have keys := located.keys
  have few := located.few
  rw [located.list] at keys few
  refine ⟨?_,?_,?_,count,room⟩
  · intro r member
    rcases List.mem_append.mp member with low | high
    · exact located.others r (List.mem_append_left _ low)
    · rcases List.mem_cons.mp high with rfl | high
      · exact waits
      · exact located.others r (List.mem_append_right _ high)
  · simpa only [List.map_append,List.map_cons,key] using keys
  · simpa only [List.length_append,List.length_cons] using few

theorem freed_perm (freed given queue : List Pbuf) : ((freed ++ given) ++ queue).Perm ((freed ++ queue) ++ given) := by
  rw [List.append_assoc,List.append_assoc]
  exact List.Perm.append_left _ List.perm_append_comm

theorem nullreturnIpr_spec (located : Located whole received f s before ipr after) :
    Core whole received (nullreturnIpr before.length ipr f s) ∧
      (held (nullreturnIpr before.length ipr f s)).Perm (held s ++ f.pbufs) := by
  have room := located.room
  have count := located.count
  unfold nullreturnIpr nullreturn
  by_cases none_ : ipr.p = []
  · have empty : ipr.pbufs = [] := by rw [Reassdata.pbufs,none_]; rfl
    have erased : s.reassdatagrams.eraseIdx before.length = before ++ after := by
      rw [located.list,List.eraseIdx_append_of_length_le (Nat.le_refl _),Nat.sub_self]
      rfl
    have middle := queued_middle before ipr after
    rw [empty,List.nil_append,← located.list] at middle
    rw [if_pos (by simp [none_]),erased]
    refine ⟨located.core_others _ _ (count.trans middle.length_eq),?_⟩
    exact (freed_perm s.freed f.pbufs _).trans ((middle.symm.append_left _).append_right _)
  · rw [if_neg (by simpa using none_)]
    have waits : Waits whole received ipr := ⟨located.partial_,located.header,none_,located.lacks none_⟩
    have kept := located.core_set (s.freed ++ f.pbufs) s.timeExceeded waits rfl (located.list ▸ count) (by omega)
    rw [← located.list] at kept
    exact ⟨kept,freed_perm s.freed f.pbufs _⟩

/-- With the fragment in its place -/
def Reassdata.take (ipr : Reassdata) (f : Fragment) (p : List Piece) : Reassdata :=
  let ipr := {ipr with p := p}
  if f.header.moreFragments then ipr
  else {ipr with datagramLen := (f.header.offsetBytes + (f.header.len - f.header.hlen)) % 65536, lastFrag := true}

theorem take_same (ipr : Reassdata) (f : Fragment) (p : List Piece) :
    (ipr.take f p).p = p ∧ (ipr.take f p).iphdr = ipr.iphdr ∧ (ipr.take f p).timer = ipr.timer ∧
      (ipr.take f p).lastFrag = (!f.header.moreFragments || ipr.lastFrag) := by
  unfold Reassdata.take
  cases f.header.moreFragments <;> exact ⟨rfl,rfl,rfl,rfl⟩

theorem Partial.take {bytes : List UInt8} {p : List Piece} (partial_ : Partial bytes ipr) (of : FragmentOf bytes f)
    (small : f.header.moreFragments = false → f.piece.stop ≤ 65515) (perm : p.Perm (f.piece :: ipr.p)) (ordered : Ordered p)
    (adopted : f.header.offset = 0 → ipr.iphdr.offset = 0) : Partial bytes (ipr.take f p) := by
  obtain ⟨pieces,header,timer,lastFrag⟩ := take_same ipr f p
  have inside := of.inside
  have ends : f.header.moreFragments = false ↔ f.piece.stop = bytes.length := by
    rw [of.more,decide_eq_false_iff_not]
    omega
  have either : ∀ b ∈ p, b = f.piece ∨ b ∈ ipr.p := fun b member => List.mem_cons.mp (perm.subset member)
  refine ⟨?_,by rw [pieces]; exact ordered,?_,?_,?_,timer ▸ partial_.timer⟩
  · intro b member
    rw [pieces] at member
    rcases either b member with rfl | old
    · exact ⟨Nat.le_add_right _ _,inside,of.data⟩
    · exact partial_.own b old
  · rw [lastFrag,pieces,Bool.or_eq_true,Bool.not_eq_true',ends,partial_.last]
    constructor
    · rintro (new | ⟨b,old,stop⟩)
      · exact ⟨f.piece,perm.symm.subset List.mem_cons_self,new⟩
      · exact ⟨b,perm.symm.subset (List.mem_cons_of_mem _ old),stop⟩
    · rintro ⟨b,member,stop⟩
      rcases either b member with rfl | old
      · exact .inl stop
      · exact .inr ⟨b,old,stop⟩
  · unfold Reassdata.take
    cases more : f.header.moreFragments with
    | true => exact partial_.datagramLen
    | false =>
      intro _
      have stop := ends.mp more
      have limit := small more
      refine ⟨?_,stop ▸ limit⟩
      change (f.header.offsetBytes + (f.header.len - f.header.hlen)) % 65536 = bytes.length
      rw [f.length,← stop]
      exact Nat.mod_eq_of_lt (by change f.piece.stop < 65536; omega)
  · rw [pieces,header]
    rintro ⟨b,member,zero⟩
    rcases either b member with rfl | old
    · have offset := f.offsetBytes
      change f.header.offsetBytes = 0 at zero
      exact adopted (by omega)
    · exact partial_.first ⟨b,old,zero⟩

theorem payload_pbufs (r : Reassdata) : payload r.pbufs = r.p.flatMap fun b => payload b.pbufs := by
  rw [payload,Reassdata.pbufs,List.flatMap_assoc]
  rfl

/-- Pieces without a hole that include the last one are the whole. -/
theorem Partial.complete {bytes : List UInt8} (partial_ : Partial bytes ipr) (last_ : ipr.lastFrag = true) (abut : Abut 0 ipr.p) :
    payload ipr.pbufs = bytes := by
  have forward : ∀ b ∈ ipr.p, b.start ≤ b.stop := fun b member => (partial_.own b member).1
  obtain ⟨b,member,stop⟩ := partial_.last.mp last_
  have least := stop_le_last forward abut b member
  have most : Pieces.last Piece.stop 0 ipr.p ≤ bytes.length :=
    last_le (Nat.zero_le _) fun b member => (partial_.own b member).2.1
  have ends : Pieces.last Piece.stop 0 ipr.p = bytes.length := by omega
  rw [payload_pbufs,abut_data (fun b => payload b.pbufs) bytes forward (fun b member => (partial_.own b member).2.2) abut,ends,
    slice_all]

/-- The header that the datagram is returned with -/
def Reassdata.header (ipr : Reassdata) : Header :=
  {ipr.iphdr with
    len := (ipr.datagramLen + ipHlen) % 65536, reserved := false, dontFragment := false, moreFragments := false, offset := 0,
    chksum := 0}

theorem Partial.delivered {packet : Header × List Pbuf} (partial_ : Partial (whole ipr.iphdr.key) ipr)
    (header : ∃ g ∈ received, g.header = ipr.iphdr) (some_ : ipr.p ≠ []) (last_ : ipr.lastFrag = true) (abut : Abut 0 ipr.p)
    (made : packet = (ipr.header,ipr.pbufs)) : Delivered whole received packet := by
  obtain ⟨g,among,same⟩ := header
  obtain ⟨b,rest,pieces⟩ := List.exists_cons_of_ne_nil some_
  have zero : b.start = 0 := by
    rw [pieces] at abut
    exact abut.1
  have offset := partial_.first ⟨b,by rw [pieces]; exact List.mem_cons_self,zero⟩
  obtain ⟨length,small⟩ := partial_.datagramLen last_
  have len : (ipr.datagramLen + ipHlen) % 65536 = (whole ipr.iphdr.key).length + ipHlen := by
    rw [length]
    exact Nat.mod_eq_of_lt (by unfold ipHlen; omega)
  subst made
  refine ⟨g,among,by rw [same,offset],?_,?_⟩
  · rw [same]
    exact partial_.complete last_ abut
  · rw [Reassdata.header,same,len]

theorem pbufs_take (ipr : Reassdata) (f : Fragment) {p : List Piece} (perm : p.Perm (f.piece :: ipr.p)) :
    (ipr.take f p).pbufs.Perm (f.pbufs ++ ipr.pbufs) := by
  have moved := perm.flatMap_right Piece.pbufs
  rw [Reassdata.pbufs,(take_same ipr f p).1]
  exact moved

/-- The fragment has a place in the datagram. -/
def HasPlace (ipr : Reassdata) (f : Fragment) : Prop :=
  f.piece.stop < 65536 ∧ (f.header.moreFragments = false → f.piece.stop ≤ 65515) ∧ ∀ q ∈ ipr.p, Apart f.piece q

/-- What `ip4_reass` leaves and returns when a fragment is in its place. -/
def placed (i : Nat) (ipr : Reassdata) (clen : Nat) (s : Reass) : Reass × Option (Header × List Pbuf) :=
  let pbufcount := (s.pbufcount + clen) % 65536
  if ipr.lastFrag = true ∧ Abut 0 ipr.p then
    ({s with reassdatagrams := s.reassdatagrams.eraseIdx i, pbufcount := (pbufcount + 65536 - ipr.pbufs.length) % 65536},
      some (ipr.header,ipr.pbufs))
  else ({s with reassdatagrams := s.reassdatagrams.set i ipr, pbufcount := pbufcount},none)

theorem reassInto_cases (i : Nat) (ipr : Reassdata) (f : Fragment) (s : Reass) (ordered : Ordered ipr.p)
    (forwards : ∀ q ∈ ipr.p, q.start ≤ q.stop) :
    (¬ HasPlace ipr f ∧ reassInto i ipr f s = (nullreturnIpr i ipr f s,none)) ∨
      HasPlace ipr f ∧ ∃ p, p.Perm (f.piece :: ipr.p) ∧ Ordered p ∧
        reassInto i ipr f s = placed i (ipr.take f p) f.pbufs.length s := by
  have offsetFits := f.offsetFits
  have lenFits := f.lenFits
  have filled := f.filled
  have offset := f.offsetBytes
  have stop : f.piece.stop = f.header.offsetBytes + (f.header.len - f.header.hlen) := by
    rw [f.length]
    rfl
  by_cases long : (!f.header.moreFragments) = true ∧
      ((f.header.offsetBytes + (f.header.len - f.header.hlen)) % 65536 < f.header.offsetBytes ∨
        65535 - ipHlen < (f.header.offsetBytes + (f.header.len - f.header.hlen)) % 65536)
  · left
    refine ⟨?_,if_pos long⟩
    rintro ⟨fits,small,_⟩
    obtain ⟨more,beyond⟩ := long
    have limit := small (by simpa using more)
    rw [Nat.mod_eq_of_lt (by omega)] at beyond
    unfold ipHlen at beyond
    omega
  · unfold reassInto
    rw [if_neg long]
    have small (fits : f.piece.stop < 65536) (more : f.header.moreFragments = false) : f.piece.stop ≤ 65515 := by
      have short := not_and.mp long (by simp [more])
      rw [Nat.mod_eq_of_lt (by omega)] at short
      unfold ipHlen at short
      omega
    rcases chainFragAndValidate_spec ipr f (!f.header.moreFragments) ordered forwards with
      ⟨fits,apart,p,perm,sorted,chained⟩ | ⟨met,refused⟩
    · right
      refine ⟨⟨fits,small fits,apart⟩,p,perm,sorted,?_⟩
      dsimp only
      rw [chained]
      unfold placed Reassdata.take
      cases f.header.moreFragments <;> simp [Reassdata.header]
    · left
      refine ⟨fun place => met ⟨place.1,place.2.2⟩,?_⟩
      dsimp only
      rw [refused]

theorem reassInto_spec (located : Located whole received f s before ipr after) (of : FragmentOf (whole f.header.key) f) :
    Core whole received (reassInto before.length ipr f s).1 ∧
      (held (reassInto before.length ipr f s).1 ++ (reassInto before.length ipr f s).2.toList.flatMap Prod.snd).Perm
        (held s ++ f.pbufs) ∧
      ∀ packet ∈ (reassInto before.length ipr f s).2, Delivered whole received packet := by
  have forwards : ∀ q ∈ ipr.p, q.start ≤ q.stop := fun q member => (located.partial_.own q member).1
  have room := located.room
  have count := located.count
  have bounded : reassMaxPbufs < 65536 := by decide
  rcases reassInto_cases before.length ipr f s located.partial_.ordered forwards with ⟨_,same⟩ | ⟨place,p,perm,sorted,same⟩
  · obtain ⟨core,given⟩ := nullreturnIpr_spec located
    rw [same]
    exact ⟨core,by simpa using given,nofun⟩
  · obtain ⟨pieces,header,timer,lastFrag⟩ := take_same ipr f p
    have key : whole (ipr.take f p).iphdr.key = whole ipr.iphdr.key := by rw [header]
    have taken : Partial (whole (ipr.take f p).iphdr.key) (ipr.take f p) := by
      rw [key]
      exact located.partial_.take (located.key ▸ of) place.2.1 perm sorted located.adopted
    have known : ∃ g ∈ received, g.header = (ipr.take f p).iphdr := by
      rw [header]
      exact located.header
    have some_ : (ipr.take f p).p ≠ [] := by
      rw [pieces]
      intro none_
      exact absurd (none_ ▸ perm.symm.subset List.mem_cons_self) List.not_mem_nil
    have grown := pbufs_take ipr f perm
    have larger := grown.length_eq
    have middle := queued_middle before ipr after
    rw [← located.list] at middle
    have total := middle.length_eq
    rw [List.length_append] at larger total
    have counted : (s.pbufcount + f.pbufs.length) % 65536 = s.pbufcount + f.pbufs.length := Nat.mod_eq_of_lt (by omega)
    rw [same]
    unfold placed
    rw [counted]
    dsimp only
    split_ifs with finished
    · have erased : s.reassdatagrams.eraseIdx before.length = before ++ after := by
        rw [located.list,List.eraseIdx_append_of_length_le (Nat.le_refl _),Nat.sub_self]
        rfl
      rw [erased]
      refine ⟨located.core_others _ _ (by omega),?_,?_⟩
      · refine List.perm_iff_count.mpr fun x => ?_
        have new := grown.count_eq x
        have old := middle.count_eq x
        simp only [held,List.count_append,Option.toList_some,List.flatMap_cons,List.flatMap_nil,List.append_nil] at new old ⊢
        omega
      · intro packet made
        exact taken.delivered known some_ finished.1 finished.2 (Option.some.inj made).symm
    · have replaced : s.reassdatagrams.set before.length (ipr.take f p) = before ++ ipr.take f p :: after := by
        rw [located.list,List.set_append_right _ _ (Nat.le_refl _),Nat.sub_self]
        rfl
      have after_ := queued_middle before (ipr.take f p) after
      have later := after_.length_eq
      rw [List.length_append] at later
      rw [replaced]
      refine ⟨located.core_set _ _ ⟨taken,known,some_,finished⟩ (by rw [header]) (by omega) (by omega),?_,nofun⟩
      refine List.perm_iff_count.mpr fun x => ?_
      have new := grown.count_eq x
      have old := middle.count_eq x
      have next := after_.count_eq x
      simp only [held,List.count_append,Option.toList_none,List.flatMap_nil,List.append_nil] at new old next ⊢
      omega

theorem adopt_same (ipr : Reassdata) (fraghdr : Header) : (ipr.adopt fraghdr).p = ipr.p ∧
    (ipr.adopt fraghdr).lastFrag = ipr.lastFrag ∧ (ipr.adopt fraghdr).datagramLen = ipr.datagramLen ∧
      (ipr.adopt fraghdr).timer = ipr.timer := by
  unfold Reassdata.adopt
  split_ifs <;> exact ⟨rfl,rfl,rfl,rfl⟩

theorem adopt_header (ipr : Reassdata) (fraghdr : Header) :
    (ipr.adopt fraghdr).iphdr = fraghdr ∧ fraghdr.offset = 0 ∨
      (ipr.adopt fraghdr).iphdr = ipr.iphdr ∧ (fraghdr.offset = 0 → ipr.iphdr.offset = 0) := by
  unfold Reassdata.adopt
  split_ifs with replaces
  · exact .inl ⟨rfl,replaces.1⟩
  · exact .inr ⟨rfl,fun zero => by simpa [zero] using replaces⟩

/-- A datagram that waits is found. -/
theorem Core.located (core : Core whole received s) (among : f ∈ received) (room : s.pbufcount + f.pbufs.length ≤ reassMaxPbufs)
    (list : s.reassdatagrams = before ++ ipr :: after) (key : ipr.iphdr.key = f.header.key) :
    Located whole received f {s with reassdatagrams := before ++ ipr.adopt f.header :: after} before (ipr.adopt f.header) after := by
  obtain ⟨pieces,lastFrag,datagramLen,timer⟩ := adopt_same ipr f.header
  have waits := core.waits ipr (by rw [list]; exact List.mem_append_right _ List.mem_cons_self)
  have sameKey : (ipr.adopt f.header).iphdr.key = ipr.iphdr.key := by
    rcases adopt_header ipr f.header with ⟨new,_⟩ | ⟨old,_⟩
    · rw [new,key]
    · rw [old]
  have samePbufs : (ipr.adopt f.header).pbufs = ipr.pbufs := by rw [Reassdata.pbufs,pieces]; rfl
  have keys := core.keys
  have few := core.few
  have count := core.count
  rw [list] at keys few count
  refine ⟨rfl,sameKey.trans key,?_,?_,?_,?_,?_,?_,?_,?_,room⟩
  · refine ⟨by rw [pieces,sameKey]; exact waits.own,by rw [pieces]; exact waits.ordered,
      by rw [lastFrag,pieces,sameKey]; exact waits.last,by rw [lastFrag,datagramLen,sameKey]; exact waits.datagramLen,?_,
      by rw [timer]; exact waits.timer⟩
    rw [pieces]
    intro first
    rcases adopt_header ipr f.header with ⟨new,zero⟩ | ⟨old,_⟩
    · rw [new,zero]
    · rw [old]
      exact waits.first first
  · rcases adopt_header ipr f.header with ⟨new,_⟩ | ⟨old,_⟩
    · exact ⟨f,among,new.symm⟩
    · rw [old]
      exact waits.header
  · intro zero
    rcases adopt_header ipr f.header with ⟨new,_⟩ | ⟨old,was⟩
    · rw [new,zero]
    · rw [old]
      exact was zero
  · intro _
    rw [Unfinished,lastFrag,pieces]
    exact waits.lacks
  · intro r member
    apply core.waits r
    rw [list]
    exact (List.Sublist.append_left (List.sublist_cons_self ..) _).subset member
  · simpa only [List.map_append,List.map_cons,sameKey] using keys
  · simpa only [List.length_append,List.length_cons] using few
  · simpa only [queued_append,queued_cons,samePbufs] using count

/-- A new datagram is empty yet. -/
theorem Core.located_new (core : Core whole received s) (among : f ∈ received)
    (room : s.pbufcount + f.pbufs.length ≤ reassMaxPbufs) (fresh : ∀ r ∈ s.reassdatagrams, r.iphdr.key ≠ f.header.key)
    (few : s.reassdatagrams.length < numReassdata) :
    Located whole received f {s with reassdatagrams := ⟨[],f.header,0,false,reassMaxage⟩ :: s.reassdatagrams} []
      ⟨[],f.header,0,false,reassMaxage⟩ s.reassdatagrams := by
  refine ⟨rfl,rfl,?_,⟨f,among,rfl⟩,id,fun some_ => absurd rfl some_,core.waits,?_,few,core.count,room⟩
  · exact ⟨nofun,List.Pairwise.nil,⟨nofun,fun ⟨_,member,_⟩ => absurd member List.not_mem_nil⟩,nofun,
      fun ⟨_,member,_⟩ => absurd member List.not_mem_nil,Nat.le_refl _⟩
  · rw [List.map_cons]
    refine List.nodup_cons.mpr ⟨?_,core.keys⟩
    intro member
    obtain ⟨r,among,same⟩ := List.mem_map.mp member
    exact fresh r among same

theorem findDatagram_spec (core : Core whole received s) (among : f ∈ received)
    (room : s.pbufcount + f.pbufs.length ≤ reassMaxPbufs) :
    (∃ s', findDatagram f.header f.pbufs.length s = (s',none) ∧ Core whole received s' ∧ (held s').Perm (held s)) ∨
      ∃ s' before ipr after, findDatagram f.header f.pbufs.length s = (s',some (before.length,ipr)) ∧
        Located whole received f s' before ipr after ∧ (held s').Perm (held s) := by
  unfold findDatagram
  cases found : s.reassdatagrams.findIdx? fun r => r.iphdr.matches f.header with
  | some i =>
    right
    obtain ⟨bound,hit,_⟩ := List.findIdx?_eq_some_iff_getElem.mp found
    have list : s.reassdatagrams = s.reassdatagrams.take i ++ s.reassdatagrams[i] :: s.reassdatagrams.drop (i + 1) := by
      rw [List.getElem_cons_drop,List.take_append_drop]
    have at_ : (s.reassdatagrams.take i).length = i := List.length_take_of_le (Nat.le_of_lt bound)
    have replaced (next : Reassdata) :
        s.reassdatagrams.set i next = s.reassdatagrams.take i ++ next :: s.reassdatagrams.drop (i + 1) :=
      List.set_eq_take_append_cons_drop.trans (if_pos bound)
    have located := core.located among room list ((matches_iff_key _ _).mp hit)
    dsimp only
    rw [List.getElem?_eq_getElem bound]
    refine ⟨_,s.reassdatagrams.take i,_,s.reassdatagrams.drop (i + 1),?_,located,?_⟩
    · rw [at_,← replaced]
    · have pbufs : (s.reassdatagrams[i].adopt f.header).pbufs = s.reassdatagrams[i].pbufs := by
        rw [Reassdata.pbufs,(adopt_same _ _).1]
        rfl
      rw [held,held]
      conv_rhs => rw [list]
      rw [queued_append,queued_append,queued_cons,queued_cons,pbufs]
  | none =>
    have other : ∀ r ∈ s.reassdatagrams, r.iphdr.key ≠ f.header.key := by
      intro r member same
      have missed := List.findIdx?_eq_none_iff.mp found r member
      rw [(matches_iff_key _ _).mpr same] at missed
      exact absurd missed nofun
    have enqueued (s' : Reass) (thinner : Thinner s s') (few : s'.reassdatagrams.length < numReassdata) :
        Located whole received f {s' with reassdatagrams := ⟨[],f.header,0,false,reassMaxage⟩ :: s'.reassdatagrams} []
          ⟨[],f.header,0,false,reassMaxage⟩ s'.reassdatagrams := by
      have thin := core.thin thinner
      have less := (queued_sublist thinner.sub).length_le
      have was := core.count
      have count := thin.count
      exact thin.located_new among (by omega) (fun r member => other r (thinner.sub.subset member)) few
    have thinner : Thinner s (removeOldest f.header f.pbufs.length s).1 := removeOldestLoop_thin ..
    dsimp only
    unfold enqueueNewDatagram
    by_cases few : s.reassdatagrams.length < numReassdata
    · right
      rw [if_pos few]
      exact ⟨_,[],_,_,rfl,enqueued s (Thinner.refl s) few,List.Perm.refl _⟩
    · rw [if_neg few]
      dsimp only
      split_ifs with now
      · exact .inr ⟨_,[],_,_,rfl,enqueued _ thinner now.2,thinner.held⟩
      · exact .inl ⟨_,rfl,core.thin thinner,thinner.held⟩

theorem Delivered.mono {packet : Header × List Pbuf} (delivered : Delivered whole received packet) (f : Fragment) :
    Delivered whole (received ++ [f]) packet := by
  obtain ⟨g,among,rest⟩ := delivered
  exact ⟨g,List.mem_append_left _ among,rest⟩

theorem Core.mono (core : Core whole received s) (f : Fragment) : Core whole (received ++ [f]) s := by
  refine ⟨fun r member => ?_,core.keys,core.few,core.count,core.room⟩
  have waits := core.waits r member
  obtain ⟨g,among,same⟩ := waits.header
  exact ⟨waits.toPartial,⟨g,List.mem_append_left _ among,same⟩,waits.some_,waits.lacks⟩

theorem nullreturn_spec (core : Core whole received s) :
    Core whole received (nullreturn f s) ∧ (held (nullreturn f s)).Perm (held s ++ f.pbufs) :=
  ⟨⟨core.waits,core.keys,core.few,core.count,core.room⟩,freed_perm s.freed f.pbufs _⟩

theorem ip4Reass_spec (core : Core whole received s) (f : Fragment)
    (of : f.header.hlen = ipHlen → FragmentOf (whole f.header.key) f) :
    Core whole (received ++ [f]) (ip4Reass f s).1 ∧
      (held (ip4Reass f s).1 ++ (ip4Reass f s).2.toList.flatMap Prod.snd).Perm (held s ++ f.pbufs) ∧
      ∀ packet ∈ (ip4Reass f s).2, Delivered whole (received ++ [f]) packet := by
  have later := core.mono f
  have dropped (s' : Reass) (core : Core whole (received ++ [f]) s') (same : (held s').Perm (held s)) :
      Core whole (received ++ [f]) (nullreturn f s') ∧
        (held (nullreturn f s') ++ (none : Option (Header × List Pbuf)).toList.flatMap Prod.snd).Perm (held s ++ f.pbufs) ∧
        ∀ packet ∈ (none : Option (Header × List Pbuf)), Delivered whole (received ++ [f]) packet := by
    obtain ⟨core,perm⟩ := nullreturn_spec (f := f) core
    exact ⟨core,by simpa using perm.trans (same.append_right _),nofun⟩
  unfold ip4Reass
  dsimp only
  split_ifs with optioned short
  · exact dropped s later (List.Perm.refl _)
  · exact dropped s later (List.Perm.refl _)
  · have thinner := makeRoom_thin f.header f.pbufs.length s
    have thin := later.thin thinner
    rcases made : makeRoom f.header f.pbufs.length s with ⟨s',room⟩
    rw [made] at thinner thin
    cases room with
    | false => exact dropped s' thin thinner.held
    | true =>
      have fits : s'.pbufcount + f.pbufs.length ≤ reassMaxPbufs := by
        have room := makeRoom_room (congrArg Prod.snd made)
        rwa [made] at room
      dsimp only
      rcases findDatagram_spec thin (List.mem_append_right _ (List.mem_singleton.mpr rfl)) fits with
        ⟨s'',found,core,same⟩ | ⟨s'',before,ipr,after,found,located,same⟩
      · rw [found]
        exact dropped s'' core (same.trans thinner.held)
      · rw [found]
        obtain ⟨core,perm,delivered⟩ := reassInto_spec located (of (not_not.mp optioned))
        exact ⟨core,perm.trans ((same.trans thinner.held).append_right _),delivered⟩

end Receive

/-! ### Runs -/

/-- The reassembly, with what was received and what was passed on -/
structure State where
  reass : Reass
  received : List Fragment
  delivered : List (Header × List Pbuf)

inductive Event where
  | receive (f : Fragment)
  | tick

def step (s : State) : Event → Option State
  | .receive f => some ⟨(ip4Reass f s.reass).1,s.received ++ [f],s.delivered ++ (ip4Reass f s.reass).2.toList⟩
  | .tick => some {s with reass := ipReassTmr s.reass}

def start : State := ⟨⟨[],0,[],[]⟩,[],[]⟩

/-- The fragments with one source, destination and id are of one datagram. -/
def Sent (whole : Nat × Nat × Nat → List UInt8) (_ : State) : Event → Prop
  | .receive f => f.header.hlen = ipHlen → FragmentOf (whole f.header.key) f
  | .tick => True

structure Kept (whole : Nat × Nat × Nat → List UInt8) (s : State) : Prop where
  delivered : ∀ packet ∈ s.delivered, Delivered whole s.received packet
  lacks : ∀ r ∈ s.reass.reassdatagrams,
    ∃ i < (whole r.iphdr.key).length, ∀ b ∈ r.p, ¬ (b.start ≤ i ∧ i < b.stop)
  apart : ∀ r ∈ s.reass.reassdatagrams, Ordered r.p
  keys : (s.reass.reassdatagrams.map fun r => r.iphdr.key).Nodup
  few : s.reass.reassdatagrams.length ≤ numReassdata
  room : (queued s.reass.reassdatagrams).length ≤ reassMaxPbufs
  count : s.reass.pbufcount = (queued s.reass.reassdatagrams).length
  owned : (s.received.flatMap Fragment.pbufs).Perm (held s.reass ++ s.delivered.flatMap Prod.snd)

structure Inv (whole : Nat × Nat × Nat → List UInt8) (s : State) : Prop where
  core : Core whole s.received s.reass
  delivered : ∀ packet ∈ s.delivered, Delivered whole s.received packet
  owned : (s.received.flatMap Fragment.pbufs).Perm (held s.reass ++ s.delivered.flatMap Prod.snd)

section Runs
variable {whole : Nat × Nat × Nat → List UInt8}

theorem Waits.lacks_byte {received : List Fragment} {r : Reassdata} (waits : Waits whole received r) :
    ∃ i < (whole r.iphdr.key).length, ∀ b ∈ r.p, ¬ (b.start ≤ i ∧ i < b.stop) := by
  by_contra covered
  push Not at covered
  have covers : Covers Piece.start Piece.stop r.p 0 (whole r.iphdr.key).length := fun i _ high => covered i high
  have inside : ∀ b ∈ r.p, 0 ≤ b.start ∧ b.start ≤ b.stop ∧ b.stop ≤ (whole r.iphdr.key).length := fun b member =>
    ⟨Nat.zero_le _,(waits.own b member).1,(waits.own b member).2.1⟩
  obtain ⟨abut,ends⟩ := abut_of_covers waits.ordered inside covers (Nat.zero_le _)
  obtain ⟨b,member,last_⟩ := last_mem Piece.stop waits.some_ 0
  exact waits.lacks ⟨waits.last.mpr ⟨b,member,last_.trans ends⟩,abut⟩

theorem Inv.kept {s : State} (inv : Inv whole s) : Kept whole s :=
  ⟨inv.delivered,fun r member => (inv.core.waits r member).lacks_byte,fun r member => (inv.core.waits r member).ordered,
    inv.core.keys,inv.core.few,inv.core.count ▸ inv.core.room,inv.core.count,inv.owned⟩

theorem start_inv : Inv whole start := ⟨⟨nofun,List.nodup_nil,by decide,rfl,by decide⟩,nofun,List.Perm.refl _⟩

theorem step_inv {s next : State} (event : Event) (inv : Inv whole s) (sent : Sent whole s event)
    (taken : step s event = some next) : Inv whole next := by
  cases event with
  | receive f =>
    cases taken
    obtain ⟨core,perm,delivered⟩ := ip4Reass_spec inv.core f sent
    refine ⟨core,?_,?_⟩
    · intro packet member
      rcases List.mem_append.mp member with old | new
      · exact (inv.delivered packet old).mono f
      · exact delivered packet (Option.mem_toList.mp new)
    · refine List.perm_iff_count.mpr fun x => ?_
      have owned := inv.owned.count_eq x
      have moved := perm.count_eq x
      simp only [List.flatMap_append,List.flatMap_cons,List.flatMap_nil,List.append_nil,List.count_append] at owned moved ⊢
      omega
  | tick =>
    cases taken
    obtain ⟨core,same⟩ := ipReassTmr_spec inv.core
    exact ⟨core,inv.delivered,inv.owned.trans (same.symm.append_right _)⟩

theorem reassembly_kept (whole : Nat × Nat × Nat → List UInt8) (events : List Event)
    (sent : Run.Meets (Sent whole) step start events) : Run.Throughout (Kept whole) step start events :=
  Run.throughout_of_meets (Kept whole) (Inv whole) (Sent whole) (fun _ inv => inv.kept)
    (fun _ event _ inv sent taken => step_inv event inv sent taken) start events start_inv sent

def twelve : List UInt8 := [1,2,3,4,5,6,7,8,9,10,11,12]

def firstPart : Fragment :=
  ⟨⟨20,0,28,7,false,false,true,0,64,17,0,1,2⟩,[⟨100,twelve.take 8⟩],by decide,by decide,by decide⟩

def secondPart (addr : Nat) : Fragment :=
  ⟨⟨20,0,24,7,false,false,false,1,64,17,0,1,2⟩,[⟨addr,twelve.drop 8⟩],by simp [payload,twelve],by decide,by decide⟩

/-- The second part comes first, and twice. -/
def swapped : List Event := [.receive (secondPart 200),.tick,.receive (secondPart 300),.receive firstPart]

theorem swapped_kept : ∃ s, Run.after step start swapped = some s ∧
    s.delivered.map (fun packet => payload packet.2) = [twelve] ∧ Kept (fun _ => twelve) s := by
  have sent : Run.Meets (Sent fun _ => twelve) step start swapped :=
    fun _ _ => ⟨fun _ => ⟨by decide,by decide,by decide⟩,fun _ _ => ⟨trivial,
      fun _ _ => ⟨fun _ => ⟨by decide,by decide,by decide⟩,fun _ _ => ⟨fun _ => ⟨by decide,by decide,by decide⟩,trivial⟩⟩⟩⟩
  exact ⟨_,rfl,by decide,reassembly_kept _ _ sent swapped _ (List.prefix_refl _) rfl⟩

end Runs

end OpenPlc.Net.Reassembly
