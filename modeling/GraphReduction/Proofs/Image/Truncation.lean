import GraphReduction.Cache.Entry
import GraphReduction.Proofs.Binary.Delimited
import GraphReduction.Proofs.Image.Canonical

/-!
# Truncated and extended files

Every part of a definitions file is delimited and its end marker closes it, so a file that is read
is read to its last byte. The same holds for a cache entry, whose image has its own length.
-/

namespace GraphReduction

open Decoder

theorem delimited_backReference (i : Nat) : Delimited (backReference i) :=
  .bind delimited_varint fun _ => .check (.pure _)

theorem delimited_combinator : Delimited Combinator.decode := by
  refine .bind .position fun offset => .bind delimited_byte fun code => ?_
  split
  case h_11 => exact .bind delimited_varint32 fun tag => delimited_varint32.map
  case h_12 => exact delimited_varint32.map
  case h_16 => exact .throw _
  all_goals exact .pure _

theorem delimited_character : Delimited character := by
  refine .bind .position fun start => .bind delimited_varint32 fun code => ?_
  exact .ite (.pure _) (.throw _)

theorem delimited_record (i : Nat) : Delimited (Record.decode i) := by
  refine .bind .position fun offset => .bind delimited_byte fun tag => ?_
  split
  · exact .bind (delimited_backReference i) fun fn => (delimited_backReference i).map
  · exact delimited_combinator.map
  · exact delimited_signed.map
  · exact delimited_character.map
  · exact (delimited_word 8).map
  · exact delimited_text.map
  · exact delimited_varint32.map
  · exact delimited_varint32.map
  · exact .throw _

theorem delimited_defEntry (count i : Nat) : Delimited (DefEntry.decode count i) := by
  refine .bind delimited_text fun name => .bind delimited_varint32 fun arity =>
    .bind delimited_varint fun root => ?_
  exact .check (.pure _)

namespace Image

theorem delimited_header : Delimited decodeHeader := by
  refine .bind (delimited_take _) fun start => .check (.bind (delimited_word 2) fun found => ?_)
  exact .ite (.throw _) (.pure _)

theorem delimited_entry (records defs : Nat) : Delimited (decodeEntry records defs) := by
  refine .bind delimited_varint fun n => ?_
  split
  · exact .pure none
  · exact .ite (.pure _) (.throw _)

theorem closes_end : Closes (fun n => .malformed (.trailingBytes n)) decodeEnd := by
  refine .bind (delimited_take _) fun marker => .check (.finish fun left c hleft => ?_)
  rw [if_pos hleft]
  rfl

theorem closes_decoder : Closes (fun n => .malformed (.trailingBytes n)) decoder := by
  refine .bind delimited_header fun _ => .bind delimited_varint fun count =>
    .bind (delimited_repeated delimited_record 0 count) fun records =>
    .bind delimited_varint fun defCount =>
    .bind (delimited_repeated (delimited_defEntry count) 0 defCount) fun defs =>
    .bind delimited_varint fun primCount =>
    .bind (delimited_repeated (fun _ => delimited_text) 0 primCount) fun prims =>
    .bind (.lift _) fun _ => .bind (delimited_entry count defCount) fun entry => ?_
  exact closes_end.map

end Image

theorem CacheEntry.closes_decoder (module : String) :
    Closes (fun n => .malformed (.bytesAfterImage n)) (decoder module) := by
  refine .bind (delimited_take _) fun start => .check (.bind (delimited_word 2) fun found =>
    .check (.bind (delimited_take _) fun fingerprint => .bind delimited_text fun name =>
    .check (.bind delimited_varint fun size => .bind (delimited_take size) fun bytes =>
    .bind (.lift _) fun image => .finish fun left c hleft => ?_)))
  rw [if_pos hleft]
  rfl

/-- **Truncation and extension are always detected.** Of a definitions file that is read, whatever
wrote it, every part that lacks its end is reported as truncated at its last byte, and with more
bytes after it the number of those is reported. A cache entry that is read is treated alike. -/
theorem cuts_and_extensions_detected :
    (∀ bytes image, Image.decode bytes = .ok image →
      Detects Image.decode (fun n => .malformed (.trailingBytes n)) bytes) ∧
    ∀ module bytes entry, CacheEntry.decode module bytes = .ok entry →
      Detects (CacheEntry.decode module) (fun n => .malformed (.bytesAfterImage n)) bytes :=
  ⟨fun _ _ h => Image.closes_decoder.detects h,
    fun module _ _ h => (CacheEntry.closes_decoder module).detects h⟩

/-- An entry whose image has a character of two bytes. -/
def greekEntry : CacheEntry where
  fingerprint := ⟨List.replicate 32 7⟩
  image :=
    { records := [.comb .I, .lit (.char 'λ'), .app 0 1]
      defs := [⟨"main", 0, 2⟩]
      prims := ["+"]
      entry := some 0 }

theorem cuts_and_extensions_detected_greekEntry :
    Image.decode greekEntry.image.encode = .ok greekEntry.image ∧
    CacheEntry.decode "Main" (greekEntry.encode "Main") = .ok greekEntry ∧
    Detects Image.decode (fun n => .malformed (.trailingBytes n)) greekEntry.image.encode ∧
    Detects (CacheEntry.decode "Main") (fun n => .malformed (.bytesAfterImage n))
      (greekEntry.encode "Main") := by
  have himage : Image.decode greekEntry.image.encode = .ok greekEntry.image := by decide +kernel
  have hentry : CacheEntry.decode "Main" (greekEntry.encode "Main") = .ok greekEntry := by
    decide +kernel
  exact ⟨himage, hentry, cuts_and_extensions_detected.1 _ _ himage,
    cuts_and_extensions_detected.2 _ _ _ hentry⟩

end GraphReduction
