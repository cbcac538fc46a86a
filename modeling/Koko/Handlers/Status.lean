import Koko.Handlers.Handler

/-! The page of `StatusHandler`. The request log is copied when the page is begun and
its size is asked for again when the total is printed. -/
namespace Koko.Handlers
open Koko.Lib Koko.Http

def statusRequestRow (target now : Bytes) : Bytes :=
  ascii "<tr><td>" ++ target ++ ascii "</td><td>200</td>" ++ ascii "<td>" ++ now ++ ascii "</td>" ++ ascii "</tr>"

def urlInfoRow (info : URLInfo) : Bytes :=
  ascii "<tr>" ++ ascii "<td>" ++ info.url ++ ascii "</td>" ++ ascii "<td>" ++ decimal info.resCode ++
    ascii "</td>" ++ ascii "<td>" ++ info.reqTime ++ ascii "</td>" ++ ascii "</tr>"

def handlerRow (mapping : Bytes × Bytes) : Bytes :=
  ascii "<tr><td>" ++ mapping.1 ++ ascii "</td><td>" ++ mapping.2 ++ ascii "</td></tr>"

/-- The page for a copy of the log, newest entry first, and its later size. -/
def statusPage (target now : Bytes) (urlInfo : List URLInfo) (urlInfoSize : Nat)
    (urlToHandlerName : List (Bytes × Bytes)) : Bytes :=
  ascii "<html>" ++ ascii "<head>" ++
    ascii "<style>table\x7bwidth = \"500\";\x7dtd\x7bwidth = \"400\";\x7d</style>" ++
    ascii "<title>Koko Status Report</title>" ++ ascii "</head>" ++ ascii "<body>" ++
    ascii "<h1>Koko Server Status Report</h1>" ++
    ascii "Members: Bryan Nguyen, Hyounjun Chang, Tanmaya Hada, Utsav Munendra<br>" ++
    ascii "<h3>Total Requests Received: " ++ decimal (urlInfoSize + 1) ++ ascii "</h3>" ++ ascii "</br>" ++
    ascii "<h3>Received Requests</h3>" ++ ascii "<table>" ++
    ascii "<tr><th>Location</th><th>Response Code</th><th>Time (LA)</th></tr>" ++
    (statusRequestRow target now ++ urlInfo.reverse.flatMap urlInfoRow) ++ ascii "</table>" ++ ascii "</br>" ++
    ascii "<h2>Registered Handlers</h2>" ++ ascii "<table>" ++
    ascii "<tr><th>URL Prefix</th><th>Handler Type</th></tr>" ++ urlToHandlerName.flatMap handlerRow ++
    ascii "</table>" ++ ascii "</body>" ++ ascii "</html>"

/-- The rows of the first table under its header: the request being served, then the log. -/
def requestRows (target now : Bytes) (urlInfo : List URLInfo) : List Bytes :=
  statusRequestRow target now :: urlInfo.reverse.map urlInfoRow

/-- The fixed parts of the page: up to the total, to the first table's rows, to the second's, and
to the end. -/
def pageHead : Bytes :=
  ascii "<html>" ++ ascii "<head>" ++
    ascii "<style>table\x7bwidth = \"500\";\x7dtd\x7bwidth = \"400\";\x7d</style>" ++
    ascii "<title>Koko Status Report</title>" ++ ascii "</head>" ++ ascii "<body>" ++
    ascii "<h1>Koko Server Status Report</h1>" ++
    ascii "Members: Bryan Nguyen, Hyounjun Chang, Tanmaya Hada, Utsav Munendra<br>" ++
    ascii "<h3>Total Requests Received: "

def pageRequests : Bytes :=
  ascii "</h3>" ++ ascii "</br>" ++ ascii "<h3>Received Requests</h3>" ++ ascii "<table>" ++
    ascii "<tr><th>Location</th><th>Response Code</th><th>Time (LA)</th></tr>"

def pageHandlers : Bytes :=
  ascii "</table>" ++ ascii "</br>" ++ ascii "<h2>Registered Handlers</h2>" ++ ascii "<table>" ++
    ascii "<tr><th>URL Prefix</th><th>Handler Type</th></tr>"

def pageTail : Bytes := ascii "</table>" ++ ascii "</body>" ++ ascii "</html>"

theorem statusPage_eq (target now : Bytes) (urlInfo : List URLInfo) (size : Nat) (names : List (Bytes × Bytes)) :
    statusPage target now urlInfo size names =
      pageHead ++ decimal (size + 1) ++ pageRequests ++ (requestRows target now urlInfo).flatten ++ pageHandlers ++
        names.flatMap handlerRow ++ pageTail := by
  unfold statusPage requestRows pageHead pageRequests pageHandlers pageTail
  simp only [List.append_assoc, List.flatten_cons, ← List.flatMap_def]

end Koko.Handlers
