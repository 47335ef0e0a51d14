import Birokrasi.Value.Arithmetic

/-!
# Projects

What the classic and the extended language say about a project: money, disasters, meetings and the end on
paper.
-/

namespace Birokrasi.Project

def rupiah (v : Value) : Except Fault String := do
  match v.number? with
  | some n => return "Rp " ++ Decimal.fixed 0 true (← n.toFloat)
  | none => return "Rp " ++ v.shown

/-- A budget that is not below zero. -/
def atLeastZero (v : Value) : Except Fault Value := do
  return if (← v.less (.int 0)) then .int 0 else v

def disasters : List String :=
  ["💸 Dana habis untuk operasional!", "🏃 Vendor kabur dengan uang muka!",
    "🌧️ Longsor menghancurkan pondasi!", "🚨 Audit mendadak dari KPK!",
    "📄 Dokumen perizinan bermasalah!", "👷 Pekerja mogok kerja!"]

def ended : String := "Selesai (di atas kertas)"

def meetingOpening : List String :=
  ["🔄 Memulai RapatInfinite()...", "⚠️ Program terjebak dalam rapat berkepanjangan!"]

def session (number : Nat) : String :=
  "📋 Rapat sesi ke-" ++ toString number ++ ": Belum ada keputusan..."

def meetingClosing : String := "⏸️ (RapatInfinite dihentikan paksa untuk demo)"

def farewell (status budget : String) : List String :=
  ["\n✅ PROYEK SELESAI!", "Progress: 100% [█████████░]", "Status: " ++ status,
    "Sisa Anggaran: " ++ budget, "(Kondisi fisik: Data tidak tersedia)"]

end Birokrasi.Project
