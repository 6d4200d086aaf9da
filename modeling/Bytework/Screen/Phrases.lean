import Bytework.Bytes.Basic

/-!
# Phrases

The phrases that a scan looks for in an input, all in lower case.
-/

namespace Bytework.Screen

/-- Markup that runs code, or reaches into a page. -/
def scriptPhrases : List Bytes :=
  ["<script", "</script", "javascript:", "vbscript:", "eval(", "document.cookie",
    "document.write", "window.location", "iframe", "<svg", "srcdoc="].map ascii

/-- Fragments of database statements. -/
def sqlPhrases : List Bytes :=
  ["select ", "insert ", "update ", "delete ", "drop ", "union ", "--", "/*", "0x", "xp_",
    "information_schema", "' or '", " or 1=1", "sleep(", "benchmark("].map ascii

/-- Fragments of command lines. -/
def shellPhrases : List Bytes :=
  ["curl ", "wget ", "rm -rf", "powershell", "cmd.exe", "|", "&&", "$(", "`", "/bin/sh",
    "/bin/bash", "bash -c", "sh -c", "zsh", "nc -e", "mkfifo"].map ascii

/-- Names of automatic clients. -/
def botPhrases : List Bytes :=
  ["bot", "crawl", "spider", "slurp", "curl/", "wget/", "python-requests", "python-urllib",
    "go-http-client", "httpclient", "scrapy", "headless", "phantomjs", "selenium", "puppeteer"].map ascii

/-- Unwanted advertisements. -/
def spamPhrases : List Bytes :=
  ["viagra", "free money", "click here", "bitcoin", "winner!", "act now", "buy now",
    "limited time offer", "100% free", "risk-free", "work from home", "earn $", "casino",
    "lottery"].map ascii

/-- Paths that leave their place. -/
def pathPhrases : List Bytes :=
  ["../", "..\\", "%2e%2e", "/etc/passwd", "/etc/shadow", "/proc/self/environ", "c:\\",
    "\\windows\\system32", "file://"].map ascii

end Bytework.Screen
